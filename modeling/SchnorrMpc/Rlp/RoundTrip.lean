import SchnorrMpc.Rlp.Decode
import SchnorrMpc.Rlp.Merge

/-!
# Decoding what has been encoded

Every call on a stream takes the canonical encoding of its value off the input, whatever comes
after it. The only read that may fail is that of the last string, when the reader reports the end
of the input together with its last bytes.
-/
namespace SchnorrMpc.Rlp

open Lib Lib.Rlp

variable {m n pos rounds : Nat} {byte : UInt8} {items : List Bytes}

namespace StreamM

variable {err : RlpErr} {change : RlpErr → RlpErr}

variable {σ α β : Type} {call : StreamM σ α} {next : α → StreamM σ β} {s t : Stream σ}

@[simp] theorem pure_apply (value : α) (s : Stream σ) :
    (pure value : StreamM σ α) s = (.ok value, s) := rfl

theorem bind_ok {value : α} (returns : call s = (.ok value, t)) :
    (call >>= next) s = next value t := by
  change StreamM.bind call next s = _
  simp only [StreamM.bind, returns]

theorem bind_congr_left {other : StreamM σ α} (same : call s = other s) :
    (call >>= next) s = (other >>= next) s := by
  change StreamM.bind call next s = StreamM.bind other next s
  simp only [StreamM.bind, same]

theorem bind_congr_right {other : α → StreamM σ β}
    (same : ∀ value mid, call s = (.ok value, mid) → next value mid = other value mid) :
    (call >>= next) s = (call >>= other) s := by
  change StreamM.bind call next s = StreamM.bind call other s
  unfold StreamM.bind
  split
  next value mid returns => exact same value mid returns
  · rfl
  · rfl

theorem bind_err (fails : call s = (.err err, t)) : (call >>= next) s = (.err err, t) := by
  change StreamM.bind call next s = _
  simp only [StreamM.bind, fails]

theorem bind_eq_ok {result : β} (returns : (call >>= next) s = (.ok result, t)) :
    ∃ value mid, call s = (.ok value, mid) ∧ next value mid = (.ok result, t) := by
  change StreamM.bind call next s = _ at returns
  unfold StreamM.bind at returns
  split at returns
  next value mid first => exact ⟨value, mid, first, returns⟩
  · cases returns
  · cases returns

theorem bind_eq_err (fails : (call >>= next) s = (.err err, t)) :
    call s = (.err err, t) ∨
      ∃ value mid, call s = (.ok value, mid) ∧ next value mid = (.err err, t) := by
  change StreamM.bind call next s = _ at fails
  unfold StreamM.bind at fails
  split at fails
  next value mid first => exact .inr ⟨value, mid, first, fails⟩
  next first =>
    cases fails
    exact .inl first
  · cases fails

theorem attempt_ok {value : α} (returns : call s = (.ok value, t)) :
    attempt call s = (.ok (.ok value), t) := by
  simp only [attempt, returns]

theorem attempt_eq_ok {value : α} (returns : attempt call s = (.ok (.ok value), t)) :
    call s = (.ok value, t) := by
  unfold attempt at returns
  split at returns <;> cases returns
  assumption

theorem attempt_err (fails : call s = (.err err, t)) : attempt call s = (.ok (.error err), t) := by
  simp only [attempt, fails]

theorem attempt_eq_err (fails : attempt call s = (.ok (.error err), t)) :
    call s = (.err err, t) := by
  unfold attempt at fails
  split at fails <;> cases fails
  assumption

theorem mapErr_eq_ok_iff {value : α} :
    mapErr change call s = (.ok value, t) ↔ call s = (.ok value, t) := by
  unfold mapErr
  split
  next fails => simp [fails]
  · rfl

theorem mapErr_ok (change : RlpErr → RlpErr) {value : α} (returns : call s = (.ok value, t)) :
    mapErr change call s = (.ok value, t) :=
  mapErr_eq_ok_iff.mpr returns

theorem mapErr_err (fails : call s = (.err err, t)) :
    mapErr change call s = (.err (change err), t) := by
  simp only [mapErr, fails]

theorem mapErr_eq_err (fails : mapErr change call s = (.err err, t)) :
    ∃ cause, call s = (.err cause, t) ∧ change cause = err := by
  unfold mapErr at fails
  split at fails
  next cause mid failed =>
    cases fails
    exact ⟨cause, failed, rfl⟩
  next other => exact absurd fails (other _ _)

end StreamM

/-! ### The place of a stream in its input -/

/-- The innermost list has room for `n` more bytes. -/
def Room (n : Nat) : List ListPos → Prop
  | [] => True
  | tos :: _ => tos.pos + n ≤ tos.size

/-- The open lists after `n` bytes of the innermost have been read. -/
def advance (n : Nat) : List ListPos → List ListPos
  | [] => []
  | tos :: outer => ⟨tos.pos + n, tos.size⟩ :: outer

@[simp] theorem advance_zero (stack : List ListPos) : advance 0 stack = stack := by
  cases stack <;> rfl

theorem advance_advance (m n : Nat) (stack : List ListPos) :
    advance n (advance m stack) = advance (m + n) stack := by
  cases stack <;> simp [advance, Nat.add_assoc]

theorem Room.mono {stack : List ListPos} (room : Room n stack) (less : m ≤ n) : Room m stack := by
  cases stack with
  | nil => trivial
  | cons tos outer => exact (Nat.add_le_add_left less _).trans room

theorem room_advance_iff {stack : List ListPos} :
    Room n (advance m stack) ↔ Room (m + n) stack := by
  cases stack <;> simp [Room, advance, Nat.add_assoc]

theorem Room.advance {stack : List ListPos} (room : Room (m + n) stack) :
    Room n (advance m stack) :=
  room_advance_iff.mpr room

/-- A stream stands before `data` in the open lists `stack`. A limit is the length of the input. -/
structure At {σ : Type} [ByteReader σ] (src : Source σ) (s : Stream σ) (data : Bytes) (held : Nat)
    (stack : List ListPos) : Prop where
  holds : src.Holds s.r data held
  limit : s.limited = true → s.remaining = data.length
  open_lists : s.stack = stack

section Forward

variable {σ : Type} [ByteReader σ] {src : Source σ} {s : Stream σ} {data bytes rest : Bytes}
  {held : Nat} {stack : List ListPos}

namespace Stream

theorem willRead_at (place : At src s data held stack) (room : Room n stack)
    (enough : n ≤ data.length) :
    ∃ t, willRead n s = (.ok (), t) ∧ t.kind = none ∧ t.r = s.r ∧
      ∀ {r data' held'}, src.Holds r data' held' → data'.length = data.length - n →
        At src { t with r := r } data' held' (advance n stack) := by
  obtain ⟨holds, limit, rfl⟩ := place
  -- a limit on the input is counted down beside the open lists
  have limited : ∀ u : Stream σ, u.limited = s.limited → u.remaining = s.remaining →
      ∃ t, checkLimit n u = (.ok (), t) ∧ t.kind = u.kind ∧ t.r = u.r ∧ t.stack = u.stack ∧
        (t.limited = true → t.remaining = data.length - n) := by
    intro u sameFlag sameCount
    unfold checkLimit
    split
    next flagged =>
      have count := limit (sameFlag ▸ flagged)
      rw [if_neg (by omega)]
      exact ⟨_, rfl, rfl, rfl, rfl, fun _ => by simp only [sameCount, count]⟩
    next free => exact ⟨u, rfl, rfl, rfl, rfl, fun flagged => absurd flagged free⟩
  unfold willRead
  cases open_lists : s.stack with
  | nil =>
    obtain ⟨t, checked, fresh, reader, lists, count⟩ :=
      limited { s with kind := none, stack := [] } rfl rfl
    refine ⟨t, checked, fresh, reader, fun now length => ⟨now, ?_, ?_⟩⟩
    · intro flagged
      rw [length]
      exact count flagged
    · simpa [advance] using lists
  | cons tos outer =>
    rw [open_lists] at room
    simp only [Room] at room
    obtain ⟨t, checked, fresh, reader, lists, count⟩ :=
      limited { s with kind := none, stack := ⟨tos.pos + n, tos.size⟩ :: outer } rfl rfl
    refine ⟨t, ?_, fresh, reader, fun now length => ⟨now, ?_, ?_⟩⟩
    · simp only [if_neg (show ¬ n > tos.size - tos.pos by omega), checked]
    · intro flagged
      rw [length]
      exact count flagged
    · simpa [advance] using lists

theorem readByte_at (place : At src s (byte :: rest) held stack) (room : Room 1 stack) :
    ∃ t, readByte s = (.ok byte, t) ∧ t.kind = none ∧
      At src t rest (refill held 1) (advance 1 stack) := by
  obtain ⟨t, accepted, fresh, reader, moves⟩ := willRead_at place room (by simp)
  obtain ⟨next, read, holds⟩ := src.byte place.holds
  refine ⟨{ t with r := next }, ?_, fresh, moves holds (by simp)⟩
  unfold readByte
  rw [StreamM.bind_ok accepted]
  simp only [nextByte, reader, read]

theorem readFull_at (place : At src s (bytes ++ rest) held stack)
    (room : Room bytes.length stack) (calm : rest = [] → ¬ src.Sudden held bytes.length) :
    ∃ t, readFull bytes.length s = (.ok bytes, t) ∧ t.kind = none ∧
      At src t rest (refill held bytes.length) (advance bytes.length stack) := by
  obtain ⟨t, accepted, fresh, reader, moves⟩ := willRead_at place room (by simp)
  obtain ⟨next, read, holds⟩ := src.full place.holds calm
  refine ⟨{ t with r := next }, ?_, fresh, moves holds (by simp)⟩
  unfold readFull
  rw [StreamM.bind_ok accepted]
  simp only [fillSlice, reader, read]

theorem readFull_sudden (place : At src s bytes held stack) (room : Room bytes.length stack)
    (ends : src.Sudden held bytes.length) :
    ∃ t, readFull bytes.length s = (.err (.io .unexpectedEOF), t) := by
  obtain ⟨t, accepted, -, reader, -⟩ := willRead_at place room le_rfl
  obtain ⟨next, read⟩ := src.sudden place.holds ends
  refine ⟨{ t with r := next }, ?_⟩
  unfold readFull
  rw [StreamM.bind_ok accepted]
  simp only [fillSlice, reader, read]
  rfl

/-- Integers of up to eight bytes are read as they have been written. -/
theorem readUint_at (place : At src s (natBytes n ++ rest) held stack)
    (room : Room (byteLen n) stack) (positive : 0 < n) (short : byteLen n ≤ 8) :
    ∃ t, readUint (byteLen n) s = (.ok n, t) ∧ t.kind = none ∧
      At src t rest (refill held (byteLen n)) (advance (byteLen n) stack) := by
  obtain ⟨byte, bytes, spelled, leading⟩ := natBytes_eq_cons positive
  have nonzero : byteLen n ≠ 0 := (byteLen_pos_iff.mpr positive).ne'
  unfold readUint
  rw [if_neg nonzero]
  split
  next one =>
    have lone : bytes = [] := by
      have length := congrArg List.length spelled
      rw [length_natBytes, one, List.length_cons] at length
      exact List.eq_nil_of_length_eq_zero (by omega)
    subst lone
    rw [spelled] at place
    rw [one] at room ⊢
    obtain ⟨t, read, fresh, after⟩ := readByte_at place room
    refine ⟨t, ?_, fresh, after⟩
    rw [StreamM.bind_ok read]
    have value := beNat_natBytes n
    rw [spelled] at value
    simp only [beNat, List.foldl_cons, List.foldl_nil, Nat.zero_mul, Nat.zero_add] at value
    rw [value]
    rfl
  next =>
    rw [← length_natBytes] at room ⊢
    have small : (natBytes n).length < bufSize := by
      rw [length_natBytes]
      exact short.trans_lt (by decide)
    obtain ⟨t, read, fresh, after⟩ := readFull_at place room fun _ => src.small small
    refine ⟨t, ?_, fresh, after⟩
    rw [StreamM.bind_ok read, if_neg (by simp [spelled, leading]), beNat_natBytes]
    rfl

end Stream
end Forward

/-! ### Headers -/

/-- The tags of a string or a list: that of a short one without content, and the one before those
that say how long the size is. -/
def Kind.small : Kind → Nat
  | .list => 0xC0
  | _ => 0x80

def Kind.large : Kind → Nat
  | .list => 0xF7
  | _ => 0xB7

/-- The sizes of the reads of a header. -/
def headReads (size : Nat) : List Nat :=
  if size < 56 then [1] else [1, byteLen size]

section Headers

variable {σ : Type} [ByteReader σ] {src : Source σ} {s : Stream σ} {data bytes rest : Bytes}
  {held : Nat} {stack : List ListPos} {kind : Kind}

namespace Stream

theorem tagKind_small (headed : kind ≠ .byte) {size : Nat} (short : size < 56) :
    (tagKind (kind.small + size) : StreamM σ _) = pure (kind, size, none) := by
  cases kind with
  | byte => exact absurd rfl headed
  | string =>
    dsimp only [Kind.small]
    unfold tagKind
    rw [if_neg (by omega), if_pos (by omega), Nat.add_sub_cancel_left]
  | list =>
    dsimp only [Kind.small]
    unfold tagKind
    rw [if_neg (by omega), if_neg (by omega), if_neg (by omega), if_pos (by omega),
      Nat.add_sub_cancel_left]

theorem tagKind_large (headed : kind ≠ .byte) {sizesize : Nat} (positive : 0 < sizesize)
    (most : sizesize ≤ 8) :
    (tagKind (kind.large + sizesize) : StreamM σ _) = (do
      let (size, err) ← readSize sizesize
      pure (kind, size, err)) := by
  cases kind with
  | byte => exact absurd rfl headed
  | string =>
    dsimp only [Kind.large]
    unfold tagKind
    rw [if_neg (by omega), if_neg (by omega), if_pos (by omega), Nat.add_sub_cancel_left]
  | list =>
    dsimp only [Kind.large]
    unfold tagKind
    rw [if_neg (by omega), if_neg (by omega), if_neg (by omega), if_neg (by omega),
      Nat.add_sub_cancel_left]

theorem readSize_at {size : Nat} (place : At src s (natBytes size ++ rest) held stack)
    (room : Room (byteLen size) stack) (long : 56 ≤ size) (range : size < 2 ^ 64) :
    ∃ t, readSize (byteLen size) s = (.ok (size, none), t) ∧
      At src t rest (refill held (byteLen size)) (advance (byteLen size) stack) := by
  obtain ⟨t, read, -, after⟩ := readUint_at place room (by omega) (byteLen_le range)
  refine ⟨t, ?_, after⟩
  unfold readSize
  rw [StreamM.bind_ok (StreamM.attempt_ok read)]
  simp only [if_neg (not_lt.mpr long)]
  rfl

theorem readKind_of_byte {t : Stream σ} (read : readByte s = (.ok byte, t)) :
    readKind s =
      tagKind byte.toNat { t with byteval := if byte.toNat < 0x80 then byte else 0 } := by
  unfold readKind
  rw [StreamM.bind_ok (show StreamM.get s = (.ok s, s) from rfl),
    StreamM.bind_ok (StreamM.attempt_ok read)]
  exact StreamM.bind_ok rfl

/-- A header is read as the kind and the size it stands for. -/
theorem readKind_at (headed : kind ≠ .byte) {size : Nat}
    (place : At src s (header kind.small kind.large size ++ rest) held stack)
    (room : Room (header kind.small kind.large size).length stack) (range : size < 2 ^ 64) :
    ∃ t, readKind s = (.ok (kind, size, none), t) ∧
      At src t rest ((headReads size).foldl refill held)
        (advance (header kind.small kind.large size).length stack) := by
  have tags : kind.small + 56 ≤ 256 ∧ kind.large + 9 ≤ 256 ∧ 0x80 ≤ kind.large := by
    cases kind <;> simp [Kind.small, Kind.large]
  unfold header at place room ⊢
  unfold headReads
  by_cases short : size < 56
  · simp only [if_pos short, List.singleton_append] at place room ⊢
    obtain ⟨t, read, -, after⟩ := readByte_at place room
    have tag : (UInt8.ofNat (kind.small + size)).toNat = kind.small + size := by
      rw [UInt8.toNat_ofNat']
      omega
    rw [readKind_of_byte read, tag, tagKind_small headed short]
    exact ⟨_, rfl, after.holds, after.limit, after.open_lists⟩
  · simp only [if_neg short, List.cons_append] at place room ⊢
    rw [List.length_cons, length_natBytes] at room ⊢
    have width : byteLen size ≤ 8 := byteLen_le range
    have nonzero : 0 < byteLen size := byteLen_pos_iff.mpr (by omega)
    have tag : (UInt8.ofNat (kind.large + byteLen size)).toNat = kind.large + byteLen size := by
      rw [UInt8.toNat_ofNat']
      omega
    obtain ⟨t, read, -, after⟩ := readByte_at place (room.mono (by omega))
    rw [readKind_of_byte read, tag, if_neg (by omega), tagKind_large headed nonzero width]
    rw [Nat.add_comm (byteLen size)] at room ⊢
    -- what the first byte leaves is the size
    have moved : At src { t with byteval := 0 } (natBytes size ++ rest) (refill held 1)
        (advance 1 stack) := ⟨after.holds, after.limit, after.open_lists⟩
    obtain ⟨u, sized, last⟩ := readSize_at moved room.advance (by omega) range
    rw [StreamM.bind_ok sized]
    rw [advance_advance] at last
    exact ⟨u, rfl, last⟩

theorem readKind_byte (place : At src s (byte :: rest) held stack) (room : Room 1 stack)
    (low : byte.toNat < 0x80) :
    ∃ t, readKind s = (.ok (.byte, 0, none), t) ∧ t.byteval = byte ∧
      At src t rest (refill held 1) (advance 1 stack) := by
  obtain ⟨t, read, -, after⟩ := readByte_at place room
  rw [readKind_of_byte read]
  unfold tagKind
  rw [if_pos low]
  exact ⟨_, rfl, if_pos low, after.holds, after.limit, after.open_lists⟩

/-- `Kind` passes on what `readKind` has read, if the value fits into what is left. -/
theorem kindAhead_of_readKind {t : Stream σ} {size : Nat}
    (fresh : s.kind = none) (inside : Room 1 s.stack)
    (read : readKind { s with kinderr := none } = (.ok (kind, size, none), t))
    (after : At src t rest held stack) (room : Room size stack) (enough : size ≤ rest.length) :
    ∃ u, kindAhead s = (.ok (kind, size), u) ∧ u.byteval = t.byteval ∧
      At src u rest held stack := by
  have going : (s.stack.head?.any fun tos => tos.pos = tos.size) = false := by
    cases lists : s.stack with
    | nil => rfl
    | cons tos outer =>
      rw [lists] at inside
      simp only [Room] at inside
      simp
      omega
  have checked : t.checkSize size = none := by
    unfold checkSize
    cases lists : t.stack with
    | nil =>
      refine if_neg fun exceeds => ?_
      have count := after.limit exceeds.1
      omega
    | cons tos outer =>
      rw [after.open_lists.symm.trans lists] at room
      simp only [Room] at room
      exact if_neg (by omega)
  refine ⟨{ t with kind := some kind, size := size, kinderr := none }, ?_, rfl, after.holds,
    after.limit, after.open_lists⟩
  unfold kindAhead
  rw [fresh] at read ⊢
  simp only [going, read, checked, Bool.false_eq_true, if_false, Option.or_none]

/-- A string or a list is announced by its header. -/
theorem kindAhead_at (kind : Kind) (fresh : s.kind = none) (headed : kind ≠ .byte) {size : Nat}
    (place : At src s (header kind.small kind.large size ++ rest) held stack)
    (room : Room ((header kind.small kind.large size).length + size) stack) (range : size < 2 ^ 64)
    (enough : size ≤ rest.length) :
    ∃ t, kindAhead s = (.ok (kind, size), t) ∧
      At src t rest ((headReads size).foldl refill held)
        (advance (header kind.small kind.large size).length stack) := by
  have some_head : 1 ≤ (header kind.small kind.large size).length := by
    unfold header
    split <;> simp
  have start : At src { s with kinderr := none } (header kind.small kind.large size ++ rest) held
      stack := ⟨place.holds, place.limit, place.open_lists⟩
  obtain ⟨t, read, after⟩ := readKind_at headed start (room.mono (Nat.le_add_right _ _)) range
  have inside : Room 1 s.stack := place.open_lists ▸ room.mono (by omega)
  obtain ⟨u, ahead, -, last⟩ := kindAhead_of_readKind fresh inside read after room.advance enough
  exact ⟨u, ahead, last⟩

theorem kindAhead_byte (fresh : s.kind = none) (place : At src s (byte :: rest) held stack)
    (room : Room 1 stack) (low : byte.toNat < 0x80) :
    ∃ t, kindAhead s = (.ok (.byte, 0), t) ∧ t.byteval = byte ∧
      At src t rest (refill held 1) (advance 1 stack) := by
  have start : At src { s with kinderr := none } (byte :: rest) held stack :=
    ⟨place.holds, place.limit, place.open_lists⟩
  obtain ⟨t, read, value, after⟩ := readKind_byte start room low
  have inside : Room 1 s.stack := place.open_lists ▸ room
  have nothing : Room (1 + 0) stack := room
  obtain ⟨u, ahead, same, last⟩ :=
    kindAhead_of_readKind fresh inside read after nothing.advance (Nat.zero_le _)
  exact ⟨u, ahead, same.trans value, last⟩

end Stream
end Headers

/-! ### Values -/

/-- The sizes of the reads of a string. -/
def stringReads (bytes : Bytes) : List Nat :=
  if IsSingle bytes then [1] else headReads bytes.length ++ [bytes.length]

section Values

variable {σ : Type} [ByteReader σ] {src : Source σ} {s : Stream σ} {data bytes rest : Bytes}
  {held : Nat} {stack : List ListPos}

namespace Stream

/-- The read of a string's content takes the rest of the input and gets the report of its end. -/
def LastRead (src : Source σ) (held : Nat) (bytes rest : Bytes) : Prop :=
  rest = [] ∧ ¬ IsSingle bytes ∧
    src.Sudden ((headReads bytes.length).foldl refill held) bytes.length

section

variable (fresh : s.kind = none)

include fresh

theorem bytes_at (place : At src s (string bytes ++ rest) held stack)
    (room : Room (string bytes).length stack) (range : bytes.length < 2 ^ 63)
    (calm : ¬ LastRead src held bytes rest) :
    ∃ t, Stream.bytes s = (.ok bytes, t) ∧ t.kind = none ∧
      At src t rest ((stringReads bytes).foldl refill held)
        (advance (string bytes).length stack) := by
  unfold string at place room ⊢
  unfold stringReads
  by_cases single : IsSingle bytes
  · obtain ⟨byte, rfl, low⟩ := id single
    -- a byte below 0x80 is its own encoding
    simp only [if_pos single] at place room ⊢
    obtain ⟨u, ahead, isByte, last⟩ := kindAhead_byte fresh place room low
    refine ⟨{ u with kind := none }, ?_, rfl, last.holds, last.limit, last.open_lists⟩
    unfold Stream.bytes
    rw [StreamM.bind_ok ahead]
    change (Outcome.ok [u.byteval], ({ u with kind := none } : Stream σ)) = (Outcome.ok [byte], _)
    rw [← isByte]
  -- any other string has a header
  · simp only [if_neg single] at place room ⊢
    rw [List.append_assoc] at place
    rw [List.length_append] at room ⊢
    obtain ⟨t, ahead, after⟩ := kindAhead_at .string fresh (by decide) place room
      (by omega) (by simp)
    have quiet : rest = [] → ¬ src.Sudden ((headReads bytes.length).foldl refill held)
        bytes.length := fun ends sudden => calm ⟨ends, single, sudden⟩
    obtain ⟨u, read, unkinded, last⟩ := readFull_at after room.advance quiet
    rw [advance_advance] at last
    rw [List.foldl_append]
    refine ⟨u, ?_, unkinded, last⟩
    unfold Stream.bytes
    rw [StreamM.bind_ok ahead]
    simp only [if_neg (not_le.mpr range)]
    rw [StreamM.bind_ok read, if_neg]
    · rfl
    · rintro ⟨one, low⟩
      obtain ⟨byte, rfl⟩ := List.length_eq_one_iff.mp one
      exact single ⟨byte, rfl, by simpa [UInt8.lt_iff_toNat_lt] using low⟩

theorem bytes_lastRead (place : At src s (string bytes) held stack)
    (room : Room (string bytes).length stack) (range : bytes.length < 2 ^ 63)
    (last : LastRead src held bytes []) : ∃ t, Stream.bytes s = (.err (.io .unexpectedEOF), t) := by
  obtain ⟨-, plain, sudden⟩ := last
  unfold string at place room
  simp only [if_neg plain] at place room
  rw [List.length_append] at room
  obtain ⟨t, ahead, after⟩ := kindAhead_at .string fresh (by decide) place room
    (by omega) le_rfl
  obtain ⟨u, read⟩ := readFull_sudden after room.advance sudden
  refine ⟨u, ?_⟩
  unfold Stream.bytes
  rw [StreamM.bind_ok ahead]
  simp only [if_neg (not_le.mpr range)]
  rw [StreamM.bind_err read]

/-- Integers are strings too short to be read suddenly. -/
theorem uint_at {i : Nat} (place : At src s (integer i ++ rest) held stack)
    (room : Room (integer i).length stack) (range : i < 2 ^ 64) :
    ∃ t, Stream.uint 64 s = (.ok i, t) ∧ t.kind = none ∧
      At src t rest ((stringReads (natBytes i)).foldl refill held)
        (advance (integer i).length stack) := by
  have width : byteLen i ≤ 8 := byteLen_le range
  unfold integer string at place room ⊢
  unfold stringReads
  by_cases single : IsSingle (natBytes i)
  · obtain ⟨byte, spelled, low⟩ := id single
    have isValue : byte.toNat = i := by
      have value := beNat_natBytes i
      rw [spelled] at value
      simpa [beNat] using value
    have leading : byte ≠ 0 := by
      rintro rfl
      exact absurd isValue.symm (isSingle_natBytes_iff.mp single).1.ne'
    simp only [if_pos single] at place room ⊢
    rw [spelled] at place room ⊢
    obtain ⟨u, ahead, isByte, last⟩ := kindAhead_byte fresh place room low
    refine ⟨{ u with kind := none }, ?_, rfl, last.holds, last.limit, last.open_lists⟩
    unfold Stream.uint
    rw [StreamM.bind_ok ahead]
    change (StreamM.get >>= _) u = _
    rw [StreamM.bind_ok (show StreamM.get u = (.ok u, u) from rfl),
      if_neg (show ¬ u.byteval = 0 by rwa [isByte])]
    change (Outcome.ok u.byteval.toNat, ({ u with kind := none } : Stream σ)) = _
    rw [isByte, isValue, ← isByte]
  · simp only [if_neg single] at place room ⊢
    rw [List.append_assoc] at place
    rw [List.length_append] at room ⊢
    obtain ⟨t, ahead, after⟩ := kindAhead_at .string fresh (by decide) place room
      (by rw [length_natBytes]; omega) (by simp)
    rw [length_natBytes] at ahead
    -- zero has no bytes at all, and its size alone is its value
    have read : ∃ u, readUint (byteLen i) t = (.ok i, u) ∧ u.kind = none ∧
        At src u rest (refill ((headReads (natBytes i).length).foldl refill held)
          (natBytes i).length) (advance (natBytes i).length (advance
          (header 0x80 0xB7 (natBytes i).length).length stack)) := by
      rcases Nat.eq_zero_or_pos i with rfl | positive
      · refine ⟨{ t with kind := none }, rfl, rfl, after.holds, after.limit, ?_⟩
        rw [show (natBytes 0).length = 0 from rfl] at after ⊢
        rw [advance_advance, Nat.add_zero]
        exact after.open_lists
      · have last := room.advance
        rw [length_natBytes] at last after ⊢
        exact readUint_at after last positive width
    obtain ⟨u, taken, unkinded, last⟩ := read
    rw [advance_advance] at last
    rw [List.foldl_append]
    refine ⟨u, ?_, unkinded, last⟩
    unfold Stream.uint
    rw [StreamM.bind_ok ahead]
    simp only [if_neg (show ¬ byteLen i > 64 / 8 by omega)]
    rw [StreamM.bind_ok (StreamM.attempt_ok taken)]
    refine congrFun (if_neg ?_) u
    -- a number below 128 would have been a byte of its own
    rintro ⟨nonempty, low⟩
    exact single (isSingle_natBytes_iff.mpr ⟨byteLen_pos_iff.mp nonempty, low⟩)

/-- A list is opened at its content. -/
theorem list_at {content : Bytes} (place : At src s (Lib.Rlp.list content ++ rest) held stack)
    (room : Room (Lib.Rlp.list content).length stack) (range : content.length < 2 ^ 64) :
    ∃ t, Stream.list s = (.ok content.length, t) ∧ t.kind = none ∧
      At src t (content ++ rest) ((headReads content.length).foldl refill held)
        (⟨0, content.length⟩ :: advance (header 0xC0 0xF7 content.length).length stack) := by
  unfold Lib.Rlp.list at place room
  rw [List.append_assoc] at place
  rw [List.length_append] at room
  obtain ⟨t, ahead, after⟩ := kindAhead_at .list fresh (by decide) place room range (by simp)
  refine ⟨{ t with stack := ⟨0, content.length⟩ :: t.stack, kind := none, size := 0 }, ?_, rfl,
    after.holds, after.limit, congrArg _ after.open_lists⟩
  unfold Stream.list
  rw [StreamM.bind_ok ahead]
  rfl

end

theorem listEnd_at {size : Nat} (place : At src s data held (⟨size, size⟩ :: stack)) :
    ∃ t, Stream.listEnd s = (.ok (), t) ∧ t.kind = none ∧
      At src t data held (advance size stack) := by
  obtain ⟨holds, limit, lists⟩ := place
  refine ⟨{ s with stack := advance size stack, kind := none, size := 0 }, ?_, rfl, holds, limit,
    rfl⟩
  unfold Stream.listEnd
  rw [lists]
  cases stack with
  | nil => simp [advance]
  | cons tos outer => simp [advance]

theorem bytes_eol {size : Nat} (fresh : s.kind = none) (lists : s.stack = ⟨size, size⟩ :: stack) :
    Stream.bytes s = (.err .eol, { s with kinderr := none }) := by
  have ended : kindAhead s = (.err .eol, { s with kinderr := none }) := by
    unfold kindAhead
    rw [fresh, lists]
    simp
  unfold Stream.bytes
  rw [StreamM.bind_err ended]

end Stream
end Values

/-! ### Lists of strings -/

section Lists

variable {σ : Type} [ByteReader σ] {src : Source σ} {s : Stream σ} {data bytes rest : Bytes}
  {held : Nat} {stack : List ListPos} {α β : Type}

/-- The content of the last string of a list is read suddenly. -/
def LastItem (src : Source σ) : Nat → List Bytes → Bytes → Prop
  | _, [], _ => False
  | held, [last], rest => Stream.LastRead src held last rest
  | held, item :: next :: items, rest =>
    LastItem src ((stringReads item).foldl refill held) (next :: items) rest

theorem lastItem_append (items : List Bytes) (last : Bytes) :
    LastItem src held (items ++ [last]) rest ↔
      Stream.LastRead src ((items.flatMap stringReads).foldl refill held) last rest := by
  induction items generalizing held with
  | nil => rfl
  | cons item items ih =>
    rw [List.flatMap_cons, List.foldl_append, ← ih]
    cases items <;> rfl

theorem LastItem.ends (last : LastItem src held items rest) : rest = [] := by
  induction items generalizing held with
  | nil => exact last.elim
  | cons item items ih =>
    cases items with
    | nil => exact last.1
    | cons next items => exact ih last

/-- A decoder of elements that are written as strings. -/
structure ElemDecoder (src : Source σ) (elemdec : StreamM σ α) (spelled : β → Bytes)
    (value : β → α) (items : List β) : Prop where
  takes : ∀ item ∈ items, ∀ {s : Stream σ} {rest : Bytes} {held : Nat} {stack : List ListPos},
    s.kind = none → At src s (string (spelled item) ++ rest) held stack →
    Room (string (spelled item)).length stack → ¬ Stream.LastRead src held (spelled item) rest →
    ∃ t, elemdec s = (.ok (value item), t) ∧ t.kind = none ∧
      At src t rest ((stringReads (spelled item)).foldl refill held)
        (advance (string (spelled item)).length stack)
  breaks : ∀ item ∈ items, ∀ {s : Stream σ} {held : Nat} {stack : List ListPos},
    s.kind = none → At src s (string (spelled item)) held stack →
    Room (string (spelled item)).length stack → Stream.LastRead src held (spelled item) [] →
    ∃ t, elemdec s = (.err (.io .unexpectedEOF), t)
  ends : ∀ {s : Stream σ} {size : Nat} {stack : List ListPos}, s.kind = none →
    s.stack = ⟨size, size⟩ :: stack → elemdec s = (.err .eol, { s with kinderr := none })

theorem decodeByteSlice_elem (src : Source σ) (range : ∀ item ∈ items, item.length < 2 ^ 63) :
    ElemDecoder src decodeByteSlice id id items where
  takes := by
    intro item member s rest held stack fresh place room calm
    obtain ⟨t, taken, after⟩ := Stream.bytes_at fresh place room (range item member) calm
    exact ⟨t, StreamM.mapErr_eq_ok_iff.mpr taken, after⟩
  breaks := by
    intro item member s held stack fresh place room last
    obtain ⟨t, fails⟩ := Stream.bytes_lastRead fresh place room (range item member) last
    exact ⟨t, StreamM.mapErr_err fails⟩
  ends := fun fresh lists => StreamM.mapErr_err (Stream.bytes_eol fresh lists)

/-- The bytes of a big integer, whose sign is not written. -/
def spellInt (item : Int) : Bytes := natBytes item.toNat

theorem decodeBigInt_elem (src : Source σ) {items : List Int} (nonneg : ∀ item ∈ items, 0 ≤ item)
    (range : ∀ item ∈ items, (spellInt item).length < 2 ^ 63) :
    ElemDecoder src decodeBigInt spellInt id items where
  takes := by
    intro item member s rest held stack fresh place room calm
    obtain ⟨t, taken, after⟩ := Stream.bytes_at fresh place room (range item member) calm
    refine ⟨t, ?_, after⟩
    unfold spellInt at taken
    have leading : (natBytes item.toNat).head? ≠ some 0 := by
      rcases Nat.eq_zero_or_pos item.toNat with zero | positive
      · rw [zero]
        decide
      · obtain ⟨byte, bytes, spelled, nonzero⟩ := natBytes_eq_cons positive
        simpa [spelled] using nonzero
    unfold decodeBigInt
    rw [StreamM.bind_ok (StreamM.mapErr_eq_ok_iff.mpr taken), if_neg leading, beNat_natBytes,
      Int.toNat_of_nonneg (nonneg item member)]
    rfl
  breaks := by
    intro item member s held stack fresh place room last
    obtain ⟨t, fails⟩ := Stream.bytes_lastRead fresh place room (range item member) last
    refine ⟨t, ?_⟩
    unfold decodeBigInt
    rw [StreamM.bind_err (StreamM.mapErr_err fails)]
    rfl
  ends := by
    intro s size stack fresh lists
    unfold decodeBigInt
    rw [StreamM.bind_err (StreamM.mapErr_err (Stream.bytes_eol fresh lists))]
    rfl

section Elements

variable {elemdec : StreamM σ α} {spelled : β → Bytes} {value : β → α} {items : List β}

theorem flatMap_string_ne_nil {item : β} : (item :: items).flatMap (string ∘ spelled) ≠ [] := by
  rw [List.flatMap_cons]
  exact fun nothing => string_ne_nil _ (List.append_eq_nil_iff.mp nothing).1

theorem length_le_flatMap_string (spelled : β → Bytes) (items : List β) :
    items.length ≤ (items.flatMap (string ∘ spelled)).length := by
  induction items with
  | nil => simp
  | cons item items ih =>
    have positive := List.length_pos_iff.mpr (string_ne_nil (spelled item))
    rw [List.flatMap_cons, List.length_append, List.length_cons]
    simp only [Function.comp_apply]
    omega

section

variable (decoder : ElemDecoder src elemdec spelled value items) (i : Nat) (fresh : s.kind = none)

include decoder i fresh

/-- The elements are taken one by one until the list ends. -/
theorem decodeSliceElems_at {size : Nat}
    (place : At src s (items.flatMap (string ∘ spelled) ++ rest) held (⟨pos, size⟩ :: stack))
    (sized : pos + (items.flatMap (string ∘ spelled)).length = size)
    (enough : items.length < rounds) (calm : ¬ LastItem src held (items.map spelled) rest) :
    ∃ t, decodeSliceElems elemdec rounds i s = (.ok (items.map value), t) ∧ t.kind = none ∧
      At src t rest ((items.flatMap (stringReads ∘ spelled)).foldl refill held)
        (⟨size, size⟩ :: stack) := by
  obtain ⟨rounds, rfl⟩ : ∃ r, rounds = r + 1 := ⟨rounds - 1, by omega⟩
  induction items generalizing s held pos rounds i with
  | nil =>
    obtain rfl : pos = size := by simpa using sized
    refine ⟨{ s with kinderr := none }, ?_, fresh, place.holds, place.limit, place.open_lists⟩
    unfold decodeSliceElems
    rw [StreamM.bind_ok (StreamM.attempt_err (decoder.ends fresh place.open_lists))]
    rfl
  | cons item items ih =>
    rw [List.flatMap_cons] at sized
    rw [List.flatMap_cons, List.append_assoc] at place
    rw [List.length_append] at sized
    simp only [Function.comp_apply] at sized place
    -- only the last element may be read suddenly
    have first : ¬ Stream.LastRead src held (spelled item)
        (items.flatMap (string ∘ spelled) ++ rest) := by
      cases items with
      | nil => exact calm
      | cons next items =>
        rintro ⟨nothing, -⟩
        exact flatMap_string_ne_nil (List.append_eq_nil_iff.mp nothing).1
    have later : ¬ LastItem src ((stringReads (spelled item)).foldl refill held)
        (items.map spelled) rest := by
      cases items with
      | nil => exact fun impossible => impossible
      | cons next items => exact calm
    have rest_decoder : ElemDecoder src elemdec spelled value items :=
      ⟨fun other member => decoder.takes other (List.mem_cons_of_mem _ member),
        fun other member => decoder.breaks other (List.mem_cons_of_mem _ member), decoder.ends⟩
    have room : Room (string (spelled item)).length (⟨pos, size⟩ :: stack) := by
      dsimp only [Room]
      omega
    obtain ⟨t, taken, unkinded, after⟩ :=
      decoder.takes item List.mem_cons_self fresh place room first
    dsimp only [advance] at after
    obtain ⟨rounds, rfl⟩ : ∃ r, rounds = r + 1 :=
      ⟨rounds - 1, by rw [List.length_cons] at enough; omega⟩
    obtain ⟨u, others, closed, last⟩ := ih rest_decoder (i + 1) unkinded after (by omega)
      later rounds (by rw [List.length_cons] at enough; omega)
    refine ⟨u, ?_, closed, ?_⟩
    · rw [decodeSliceElems, StreamM.bind_ok (StreamM.attempt_ok taken)]
      change (decodeSliceElems elemdec _ _ >>= _) t = _
      rw [StreamM.bind_ok others]
      rfl
    · rw [List.flatMap_cons, List.foldl_append]
      exact last

/-- The last element is read suddenly, and the list with it. -/
theorem decodeSliceElems_lastItem {size : Nat}
    (place : At src s (items.flatMap (string ∘ spelled)) held (⟨pos, size⟩ :: stack))
    (sized : pos + (items.flatMap (string ∘ spelled)).length = size)
    (enough : items.length < rounds) (last : LastItem src held (items.map spelled) []) :
    ∃ t, decodeSliceElems elemdec rounds i s = (.err (.io .unexpectedEOF), t) := by
  obtain ⟨rounds, rfl⟩ : ∃ r, rounds = r + 1 := ⟨rounds - 1, by omega⟩
  induction items generalizing s held pos rounds i with
  | nil => exact last.elim
  | cons item items ih =>
    rw [List.flatMap_cons] at sized place
    rw [List.length_append] at sized
    simp only [Function.comp_apply] at sized place
    have room : Room (string (spelled item)).length (⟨pos, size⟩ :: stack) := by
      dsimp only [Room]
      omega
    cases items with
    | nil =>
      -- the last item is cut off
      rw [List.flatMap_nil, List.append_nil] at place
      obtain ⟨t, fails⟩ := decoder.breaks item List.mem_cons_self fresh place room last
      refine ⟨t, ?_⟩
      rw [decodeSliceElems, StreamM.bind_ok (StreamM.attempt_err fails)]
      rfl
    | cons next items =>
      -- an item before it is read, since more follows
      have first : ¬ Stream.LastRead src held (spelled item)
          ((next :: items).flatMap (string ∘ spelled)) :=
        fun sudden => flatMap_string_ne_nil sudden.1
      have rest_decoder : ElemDecoder src elemdec spelled value (next :: items) :=
        ⟨fun other member => decoder.takes other (List.mem_cons_of_mem _ member),
          fun other member => decoder.breaks other (List.mem_cons_of_mem _ member), decoder.ends⟩
      obtain ⟨t, taken, unkinded, after⟩ :=
        decoder.takes item List.mem_cons_self fresh place room first
      dsimp only [advance] at after
      obtain ⟨rounds, rfl⟩ : ∃ r, rounds = r + 1 :=
        ⟨rounds - 1, by simp only [List.length_cons] at enough; omega⟩
      obtain ⟨u, others⟩ := ih rest_decoder (i + 1) unkinded after (by omega) last rounds
        (by simp only [List.length_cons] at enough ⊢; omega)
      refine ⟨u, ?_⟩
      rw [decodeSliceElems, StreamM.bind_ok (StreamM.attempt_ok taken)]
      change (decodeSliceElems elemdec _ _ >>= _) t = _
      rw [StreamM.bind_err others]

end

/-- The sizes of the reads of a list of strings. -/
def listReads (spelled : β → Bytes) (items : List β) : List Nat :=
  headReads (items.flatMap (string ∘ spelled)).length ++ items.flatMap (stringReads ∘ spelled)

section

variable (decoder : ElemDecoder src elemdec spelled value items) (typ : String)
  (fresh : s.kind = none)

include decoder typ fresh

theorem decodeListSlice_at
    (place : At src s (Lib.Rlp.list (items.flatMap (string ∘ spelled)) ++ rest) held stack)
    (room : Room (Lib.Rlp.list (items.flatMap (string ∘ spelled))).length stack)
    (range : (items.flatMap (string ∘ spelled)).length < 2 ^ 64)
    (calm : ¬ LastItem src ((headReads (items.flatMap (string ∘ spelled)).length).foldl refill held)
      (items.map spelled) rest) :
    ∃ t, decodeListSlice typ elemdec s = (.ok (items.map value), t) ∧ t.kind = none ∧
      At src t rest ((listReads spelled items).foldl refill held)
        (advance (Lib.Rlp.list (items.flatMap (string ∘ spelled))).length stack) := by
  obtain ⟨t, opened, unkinded, inside⟩ := Stream.list_at fresh place room range
  have opens := StreamM.mapErr_ok (wrapStreamError typ) opened
  obtain ⟨u, taken, -, after⟩ := decodeSliceElems_at decoder 0 unkinded inside (Nat.zero_add _)
    (Nat.lt_succ_of_le (length_le_flatMap_string spelled items)) calm
  have whole : (header 0xC0 0xF7 (items.flatMap (string ∘ spelled)).length).length +
      (items.flatMap (string ∘ spelled)).length =
      (Lib.Rlp.list (items.flatMap (string ∘ spelled))).length := by
    rw [Lib.Rlp.list, List.length_append]
  unfold decodeListSlice listReads
  rw [StreamM.bind_ok opens, List.foldl_append]
  by_cases none_left : (items.flatMap (string ∘ spelled)).length = 0
  · -- an empty list has no elements and is closed at once
    have nothing : items = [] := by
      have most := length_le_flatMap_string spelled items
      exact List.eq_nil_of_length_eq_zero (by omega)
    subst nothing
    obtain ⟨v, closes, closed, last⟩ := Stream.listEnd_at inside
    rw [advance_advance] at last
    refine ⟨v, ?_, closed, last⟩
    rw [if_pos none_left, StreamM.bind_ok closes]
    rfl
  · obtain ⟨v, closes, closed, last⟩ := Stream.listEnd_at after
    rw [advance_advance, whole] at last
    refine ⟨v, ?_, closed, last⟩
    rw [if_neg none_left, StreamM.bind_ok taken, StreamM.bind_ok closes]
    rfl

theorem decodeListSlice_lastItem
    (place : At src s (Lib.Rlp.list (items.flatMap (string ∘ spelled))) held stack)
    (room : Room (Lib.Rlp.list (items.flatMap (string ∘ spelled))).length stack)
    (range : (items.flatMap (string ∘ spelled)).length < 2 ^ 64)
    (last : LastItem src ((headReads (items.flatMap (string ∘ spelled)).length).foldl refill held)
      (items.map spelled) []) :
    ∃ t, decodeListSlice typ elemdec s = (.err (.io .unexpectedEOF), t) := by
  rw [← List.append_nil (Lib.Rlp.list _)] at place
  obtain ⟨t, opened, unkinded, inside⟩ := Stream.list_at fresh place room range
  rw [List.append_nil] at inside
  obtain ⟨u, fails⟩ := decodeSliceElems_lastItem decoder 0 unkinded inside (Nat.zero_add _)
    (Nat.lt_succ_of_le (length_le_flatMap_string spelled items)) last
  have some_left : (items.flatMap (string ∘ spelled)).length ≠ 0 := by
    cases items with
    | nil => exact last.elim
    | cons item items => exact (List.length_pos_iff.mpr flatMap_string_ne_nil).ne'
  refine ⟨u, ?_⟩
  unfold decodeListSlice
  rw [StreamM.bind_ok (StreamM.mapErr_ok (wrapStreamError typ) opened), if_neg some_left,
    StreamM.bind_err fails]

end

end Elements
end Lists

/-! ### Messages -/

section Message

variable {σ : Type} [ByteReader σ] {src : Source σ} {s : Stream σ} {rest : Bytes} {held : Nat}
  {msg : MpcMessage}

omit [ByteReader σ] in
theorem decodeField_ok {α : Type} {decoder : StreamM σ α} {value : α} {t : Stream σ}
    (typ name : String) (returns : decoder s = (.ok value, t)) :
    decodeField typ name decoder s = (.ok value, t) :=
  StreamM.mapErr_ok _ returns

/-- The sizes of the reads of a message up to the elements of `BytesData`. -/
def readsBefore (msg : MpcMessage) : List Nat :=
  headReads (fields msg).length ++ stringReads (natBytes msg.contextID) ++
    stringReads (natBytes msg.stepID) ++ stringReads msg.peers ++
    listReads spellInt msg.data ++
    headReads (msg.bytesData.flatMap string).length

section

variable (fits : Fits msg) (nonneg : ∀ item ∈ msg.data, 0 ≤ item) (fresh : s.kind = none)

include fits nonneg fresh

/-- The fields before `BytesData` are read as they have been written. -/
theorem decodeMpcMessage_before (place : At src s (wire msg ++ rest) held []) :
    ∃ t pos, t.kind = none ∧
      At src t (Lib.Rlp.list (msg.bytesData.flatMap string) ++ rest)
        ((headReads (fields msg).length ++ stringReads (natBytes msg.contextID) ++
          stringReads (natBytes msg.stepID) ++ stringReads msg.peers ++
          listReads spellInt msg.data).foldl refill held)
        [⟨pos, (fields msg).length⟩] ∧
      pos + (Lib.Rlp.list (msg.bytesData.flatMap string)).length = (fields msg).length ∧
      decodeMpcMessage s = (do
        let bytesData ← decodeField "protocol.MpcMessage" "BytesData"
          (decodeListSlice "[][]uint8" decodeByteSlice)
        StreamM.mapErr (wrapStreamError "protocol.MpcMessage") Stream.listEnd
        pure { msg with bytesData := bytesData }) t := by
  have whole := fits.fields_lt
  obtain ⟨peers_lt, data_lt, -⟩ := fits.parts_lt
  change (msg.data.flatMap (string ∘ spellInt)).length < 2 ^ 63 at data_lt
  have order : fields msg ++ rest = integer msg.contextID ++ (integer msg.stepID ++
      (string msg.peers ++ (Lib.Rlp.list (msg.data.flatMap (string ∘ spellInt)) ++
      (Lib.Rlp.list (msg.bytesData.flatMap string) ++ rest)))) := by
    simp only [fields, List.append_assoc]
    rfl
  have sizes := congrArg List.length order
  simp only [List.length_append] at sizes
  -- what comes after the data is never empty, so nothing before it is read suddenly
  have more : Lib.Rlp.list (msg.bytesData.flatMap string) ++ rest ≠ [] := by
    unfold Lib.Rlp.list header
    split <;> simp
  obtain ⟨s₁, opened, fresh₁, place₁⟩ := Stream.list_at fresh place trivial (by omega)
  rw [order] at place₁
  obtain ⟨s₂, read₁, fresh₂, place₂⟩ := Stream.uint_at fresh₁ place₁
    (by dsimp only [Room]; omega) fits.contextID
  obtain ⟨s₃, read₂, fresh₃, place₃⟩ := Stream.uint_at fresh₂ place₂
    (by dsimp only [Room, advance]; omega) fits.stepID
  obtain ⟨s₄, read₃, fresh₄, place₄⟩ := Stream.bytes_at fresh₃ place₃
    (by dsimp only [Room, advance]; omega) peers_lt
    (fun last => more (List.append_eq_nil_iff.mp last.1).2)
  obtain ⟨s₅, read₄, fresh₅, place₅⟩ := decodeListSlice_at
    (decodeBigInt_elem src nonneg fun item => fits.data_lt) "[]big.Int" fresh₄ place₄
    (by dsimp only [Room, advance]; omega) (by omega) (fun last => more last.ends)
  refine ⟨s₅, (integer msg.contextID).length + (integer msg.stepID).length +
    (string msg.peers).length + (Lib.Rlp.list (msg.data.flatMap (string ∘ spellInt))).length,
      fresh₅,
    ?_, by omega, ?_⟩
  · simp only [List.foldl_append]
    rw [advance_advance, advance_advance, advance_advance] at place₅
    simpa [advance, Nat.add_assoc] using place₅
  · unfold decodeMpcMessage
    have field₁ : decodeUint s₁ = (.ok msg.contextID, s₂) := StreamM.mapErr_ok _ read₁
    have field₂ : decodeUint s₂ = (.ok msg.stepID, s₃) := StreamM.mapErr_ok _ read₂
    have field₃ : decodeByteSlice s₃ = (.ok msg.peers, s₄) := StreamM.mapErr_ok _ read₃
    rw [StreamM.bind_ok (StreamM.mapErr_ok _ opened), StreamM.bind_ok (decodeField_ok _ _ field₁),
      StreamM.bind_ok (decodeField_ok _ _ field₂), StreamM.bind_ok (decodeField_ok _ _ field₃),
      StreamM.bind_ok (decodeField_ok _ _ read₄), List.map_id]

theorem decodeMpcMessage_at (place : At src s (wire msg ++ rest) held [])
    (calm : ¬ LastItem src ((readsBefore msg).foldl refill held) msg.bytesData rest) :
    ∃ t last, decodeMpcMessage s = (.ok msg, t) ∧ At src t rest last [] := by
  obtain ⟨t, pos, unkinded, before, sized, same⟩ :=
    decodeMpcMessage_before fits nonneg fresh place
  have whole := fits.parts_lt.2.2
  rw [readsBefore, List.foldl_append] at calm
  obtain ⟨u, read, -, after⟩ := decodeListSlice_at
    (decodeByteSlice_elem src fun item => fits.bytesData_lt) "[][]uint8" unkinded before
    sized.le (whole.trans (by decide)) (by rwa [List.map_id])
  dsimp only [advance] at after
  obtain ⟨v, closes, -, last⟩ := Stream.listEnd_at (show At src u rest _ (⟨_, _⟩ :: []) from by
    simpa only [Function.comp_id, sized] using after)
  refine ⟨v, _, ?_, last⟩
  rw [same, StreamM.bind_ok (decodeField_ok _ _ read),
    StreamM.bind_ok (StreamM.mapErr_ok _ closes), List.map_id]
  rfl

theorem decodeMpcMessage_lastItem (place : At src s (wire msg) held [])
    (last : LastItem src ((readsBefore msg).foldl refill held) msg.bytesData []) :
    ∃ t, decodeMpcMessage s = (.err (.io .unexpectedEOF), t) := by
  rw [← List.append_nil (wire msg)] at place
  obtain ⟨t, pos, unkinded, before, sized, same⟩ :=
    decodeMpcMessage_before fits nonneg fresh place
  have whole := fits.parts_lt.2.2
  rw [readsBefore, List.foldl_append] at last
  rw [List.append_nil] at before
  obtain ⟨u, fails⟩ := decodeListSlice_lastItem
    (decodeByteSlice_elem src fun item => fits.bytesData_lt) "[][]uint8" unkinded before
    sized.le (whole.trans (by decide)) (by rwa [List.map_id])
  refine ⟨u, ?_⟩
  unfold decodeField at same
  rw [same, StreamM.bind_err (StreamM.mapErr_err fails)]
  rfl

end

end Message

end SchnorrMpc.Rlp
