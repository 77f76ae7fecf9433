import SchnorrMpc.Rlp.RoundTrip

/-!
# Decoded bytes are canonical

Whatever a call on a stream over a byte string returns, it has taken the canonical encoding of that
value off the input. A message is therefore decoded from its own encoding only.
-/
namespace SchnorrMpc.Rlp

open Lib Lib.Rlp

variable {s t : Stream BytesReader} {data code bytes : Bytes} {stack : List ListPos}
  {size value sizesize tag rounds : Nat} {kind : Kind} {err : RlpErr} {typ : String}
  {msg : MpcMessage}

/-- A stream over a byte string stands before `data`. -/
abbrev Before (s : Stream BytesReader) (data : Bytes) (stack : List ListPos) : Prop :=
  At BytesReader.source s data 0 stack

theorem At.before {held : Nat} (place : At BytesReader.source s data held stack) :
    Before s data stack :=
  ⟨place.holds, place.limit, place.open_lists⟩

/-- The stream has taken `code` off the input. -/
def Took (t : Stream BytesReader) (data : Bytes) (stack : List ListPos) (code : Bytes) : Prop :=
  ∃ rest, data = code ++ rest ∧ Room code.length stack ∧ Before t rest (advance code.length stack)

theorem Took.append {front rest : Bytes} (took : Took t rest (advance front.length stack) code) :
    Took t (front ++ rest) stack (front ++ code) := by
  obtain ⟨rest, rfl, room, after⟩ := took
  rw [advance_advance, ← List.length_append] at after
  exact ⟨rest, (List.append_assoc _ _ _).symm, by
    rw [List.length_append]; exact room_advance_iff.mp room, after⟩

section Inversion

variable {s t : Stream BytesReader} {data : Bytes} {stack : List ListPos}

namespace Stream

/-! ### Reading -/

theorem willRead_ok {n : Nat} (accepted : willRead n s = (.ok (), t)) :
    (0 < n → Room n s.stack) ∧ t.r = s.r := by
  have unmoved : ∀ u : Stream BytesReader, checkLimit n u = (.ok (), t) → u.r = s.r →
      t.r = s.r := by
    intro u checked same
    unfold checkLimit at checked
    split at checked
    · split at checked <;> cases checked
      exact same
    · cases checked
      exact same
  unfold willRead at accepted
  split at accepted
  next lists => exact ⟨fun _ => by rw [lists]; trivial, unmoved _ accepted rfl⟩
  next tos outer lists =>
    split at accepted
    · cases accepted
    next fits =>
      refine ⟨fun positive => ?_, unmoved _ accepted rfl⟩
      rw [lists]
      dsimp only [Room]
      omega

section

variable (place : Before s data stack)

include place

theorem readByte_took {byte : UInt8} (read : readByte s = (.ok byte, t)) :
    t.kind = none ∧ Took t data stack [byte] := by
  obtain ⟨_, mid, accepted, taken⟩ := StreamM.bind_eq_ok read
  obtain ⟨room, reader⟩ := willRead_ok accepted
  have room := place.open_lists ▸ room Nat.one_pos
  cases data with
  | nil =>
    have ended : s.r.unread = [] := place.holds
    simp [nextByte, ByteReader.readByte, reader, ended] at taken
  | cons first rest =>
    obtain ⟨u, forward, fresh, after⟩ := readByte_at place room
    rw [forward] at read
    cases read
    exact ⟨fresh, rest, rfl, room, after.before⟩

theorem readFull_took (room : Room size stack) (read : readFull size s = (.ok bytes, t)) :
    bytes.length = size ∧ t.kind = none ∧ Took t data stack bytes := by
  obtain ⟨_, mid, accepted, taken⟩ := StreamM.bind_eq_ok read
  obtain ⟨-, reader⟩ := willRead_ok accepted
  by_cases enough : size ≤ data.length
  · -- the forward direction says what a long enough input gives
    obtain ⟨front, rest, rfl, length⟩ : ∃ front rest, data = front ++ rest ∧ front.length = size :=
      ⟨data.take size, data.drop size, (List.take_append_drop _ _).symm, by simpa using enough⟩
    subst length
    obtain ⟨u, forward, fresh, after⟩ := readFull_at place room fun _ impossible => impossible
    rw [forward] at read
    cases read
    exact ⟨rfl, fresh, rest, rfl, room, after.before⟩
  · have short : mid.r.unread.length < size := by
      rw [reader, show s.r.unread = data from place.holds]
      omega
    obtain ⟨_, _, _, ended⟩ := BytesReader.readLoop_short short size
    simp [fillSlice, ended] at taken

/-- An integer that has been read and is not zero was written in the shortest form. -/
theorem readUint_took (positive : 0 < size) (nonzero : 0 < value)
    (read : readUint size s = (.ok value, t)) :
    byteLen value = size ∧ t.kind = none ∧ Took t data stack (natBytes value) := by
  -- without a leading zero the bytes are those of their number
  have shortest : ∀ bytes : Bytes, bytes.length = size → beNat bytes = value →
      (∀ more, bytes ≠ 0 :: more) → byteLen value = size ∧ natBytes value = bytes := by
    intro bytes length isValue leading
    cases bytes with
    | nil => exact absurd length positive.ne
    | cons first more =>
      have spelled := isValue ▸ natBytes_beNat fun zero => leading more (zero ▸ rfl)
      exact ⟨by rw [← length_natBytes, spelled, length], spelled⟩
  unfold readUint at read
  rw [if_neg positive.ne'] at read
  split at read
  next one =>
    obtain ⟨byte, mid, taken, same⟩ := StreamM.bind_eq_ok read
    cases same
    obtain ⟨fresh, took⟩ := readByte_took place taken
    obtain ⟨width, spelled⟩ := shortest [byte] one.symm (by simp [beNat]) (by
      rintro more same
      cases same
      exact absurd nonzero (by decide))
    exact ⟨width, fresh, spelled ▸ took⟩
  · obtain ⟨bytes, mid, taken, same⟩ := StreamM.bind_eq_ok read
    obtain ⟨_, _, accepted, -⟩ := StreamM.bind_eq_ok taken
    have room := place.open_lists ▸ (willRead_ok accepted).1 positive
    obtain ⟨length, fresh, took⟩ := readFull_took place room taken
    split at same
    · cases same
    next leading =>
      cases same
      obtain ⟨width, spelled⟩ := shortest bytes length rfl (by
        rintro more rfl
        exact leading rfl)
      rw [spelled]
      exact ⟨width, fresh, took⟩

theorem readSize_took (positive : 0 < sizesize)
    (read : readSize sizesize s = (.ok (size, none), t)) : byteLen size = sizesize ∧ 56 ≤ size ∧
      Took t data stack (natBytes size) := by
  obtain ⟨result, mid, attempted, same⟩ := StreamM.bind_eq_ok read
  cases result with
  | error err => cases same
  | ok value =>
    by_cases short : value < 56
    · simp only [if_pos short] at same
      cases same
    · simp only [if_neg short] at same
      cases same
      obtain ⟨width, -, took⟩ :=
        readUint_took place positive (by omega) (StreamM.attempt_eq_ok attempted)
      exact ⟨width, not_lt.mp short, took⟩

end

/-- What `readKind` has taken: a byte that is a value, or a header. -/
def Announced (t : Stream BytesReader) (data : Bytes) (stack : List ListPos) (kind : Kind)
    (size : Nat) : Prop :=
  (kind = .byte ∧ size = 0 ∧ t.byteval.toNat < 0x80 ∧ Took t data stack [t.byteval]) ∨
  (kind ≠ .byte ∧ size < 2 ^ 64 ∧ Took t data stack (header kind.small kind.large size))

theorem tag_cases (range : tag < 256) : tag < 0x80 ∨ ∃ kind : Kind, kind ≠ .byte ∧
    ((∃ size, size < 56 ∧ tag = kind.small + size) ∨
      ∃ sizesize, 0 < sizesize ∧ sizesize ≤ 8 ∧ tag = kind.large + sizesize) := by
  by_cases byte : tag < 0x80
  · exact .inl byte
  · right
    by_cases string : tag < 0xC0
    · refine ⟨.string, by decide, ?_⟩
      dsimp only [Kind.small, Kind.large]
      by_cases short : tag < 0xB8
      · exact .inl ⟨tag - 0x80, by omega, by omega⟩
      · exact .inr ⟨tag - 0xB7, by omega, by omega, by omega⟩
    · refine ⟨.list, by decide, ?_⟩
      dsimp only [Kind.small, Kind.large]
      by_cases short : tag < 0xF8
      · exact .inl ⟨tag - 0xC0, by omega, by omega⟩
      · exact .inr ⟨tag - 0xF7, by omega, by omega, by omega⟩

theorem readKind_announces (place : Before s data stack)
    (read : readKind s = (.ok (kind, size, none), t)) : Announced t data stack kind size := by
  obtain ⟨_, _, got, tagged⟩ := StreamM.bind_eq_ok read
  cases got
  obtain ⟨result, mid, attempted, same⟩ := StreamM.bind_eq_ok tagged
  cases result with
  | error err => cases same
  | ok byte =>
    have taken := StreamM.attempt_eq_ok attempted
    clear tagged same
    rw [readKind_of_byte taken] at read
    obtain ⟨-, rest, rfl, room, after⟩ := readByte_took place taken
    rcases tag_cases byte.toNat_lt with low | ⟨kind', headed, ⟨size', short, isTag⟩ |
      ⟨sizesize, positive, most, isTag⟩⟩
    -- a single byte stands for itself
    · rw [tagKind, if_pos low, if_pos low] at read
      cases read
      exact .inl ⟨rfl, rfl, low, rest, rfl, room, after.holds, after.limit, after.open_lists⟩
    -- a short size is in the tag
    · rw [isTag, tagKind_small headed short] at read
      cases read
      have isHeader : header kind.small kind.large size = [byte] := by
        rw [header, if_pos short, ← isTag, UInt8.ofNat_toNat]
      refine .inr ⟨headed, by omega, ?_⟩
      rw [isHeader]
      exact ⟨rest, rfl, room, after.holds, after.limit, after.open_lists⟩
    -- a long one follows it, without leading zeros
    · rw [isTag, tagKind_large headed positive most] at read
      obtain ⟨⟨size', err⟩, u, sized, same⟩ := StreamM.bind_eq_ok read
      cases same
      have moved :
          Before { mid with byteval := if kind.large + sizesize < 0x80 then byte else 0 } rest
            (advance [byte].length stack) := ⟨after.holds, after.limit, after.open_lists⟩
      obtain ⟨width, long, took⟩ := readSize_took moved positive sized
      have isHeader : header kind.small kind.large size = [byte] ++ natBytes size := by
        rw [header, if_neg (not_lt.mpr long), width, ← isTag, UInt8.ofNat_toNat]
        rfl
      refine .inr ⟨headed, ?_, ?_⟩
      · have bound : 256 ^ byteLen size ≤ 256 ^ 8 := Nat.pow_le_pow_right (by decide) (width ▸ most)
        exact (lt_pow_byteLen size).trans_le bound
      · rw [isHeader]
        exact took.append

theorem room_of_checkSize (took : Took t data stack code) (checked : t.checkSize size = none) :
    Room size t.stack := by
  obtain ⟨rest, -, room, after⟩ := took
  cases stack with
  | nil =>
    rw [after.open_lists]
    trivial
  | cons tos outer =>
    rw [after.open_lists]
    rw [checkSize, after.open_lists] at checked
    dsimp only [Room, advance] at room checked ⊢
    split at checked
    · cases checked
    · omega

/-- `Kind` has checked that the value fits into the innermost list. -/
theorem kindAhead_announces (place : Before s data stack) (fresh : s.kind = none)
    (ahead : kindAhead s = (.ok (kind, size), t)) :
    Announced t data stack kind size ∧ Room size t.stack := by
  unfold kindAhead at ahead
  rw [fresh] at ahead
  simp only at ahead
  split at ahead
  · cases ahead
  · split at ahead
    next kind' size' err mid read =>
      split at ahead
      · cases ahead
      next passed =>
        simp only [Prod.mk.injEq, Outcome.ok.injEq] at ahead
        obtain ⟨⟨rfl, rfl⟩, rfl⟩ := ahead
        obtain ⟨rfl, checked⟩ := Option.or_eq_none_iff.mp passed
        have start : Before { s with kind := none, kinderr := none } data stack :=
          ⟨place.holds, place.limit, place.open_lists⟩
        rcases readKind_announces start read with ⟨isByte, none_left, low, took⟩ |
          ⟨headed, range, took⟩
        · have fits := room_of_checkSize took checked
          refine ⟨.inl ⟨isByte, none_left, low, ?_⟩, fits⟩
          obtain ⟨rest, same, room, after⟩ := took
          exact ⟨rest, same, room, after.holds, after.limit, after.open_lists⟩
        · have fits := room_of_checkSize took checked
          refine ⟨.inr ⟨headed, range, ?_⟩, fits⟩
          obtain ⟨rest, same, room, after⟩ := took
          exact ⟨rest, same, room, after.holds, after.limit, after.open_lists⟩
    · cases ahead
    · cases ahead

/-! ### Values -/

section

variable (place : Before s data stack) (fresh : s.kind = none)

include place fresh

theorem bytes_took (read : Stream.bytes s = (.ok bytes, t)) :
    t.kind = none ∧ Took t data stack (string bytes) := by
  obtain ⟨⟨kind, size⟩, mid, ahead, value⟩ := StreamM.bind_eq_ok read
  obtain ⟨announced, room⟩ := kindAhead_announces place fresh ahead
  rcases announced with ⟨rfl, rfl, low, took⟩ | ⟨headed, range, took⟩
  · -- a byte of its own
    have isValue : bytes = [mid.byteval] ∧ t = { mid with kind := none } := by
      cases value
      exact ⟨rfl, rfl⟩
    obtain ⟨rfl, rfl⟩ := isValue
    obtain ⟨rest, same, room, after⟩ := took
    rw [string, if_pos ⟨_, rfl, low⟩]
    exact ⟨rfl, rest, same, room, after.holds, after.limit, after.open_lists⟩
  · cases kind with
    | byte => exact absurd rfl headed
    | list => cases value
    | string =>
      simp only at value
      split at value
      · cases value
      · obtain ⟨content, last, filled, same⟩ := StreamM.bind_eq_ok value
        split at same
        · cases same
        next plain =>
          cases same
          obtain ⟨rest, rfl, _, after⟩ := took
          rw [after.open_lists] at room
          obtain ⟨length, unkinded, content_took⟩ := readFull_took after room filled
          refine ⟨unkinded, ?_⟩
          subst length
          rw [string, if_neg]
          · exact content_took.append
          · rintro ⟨byte, rfl, low⟩
            exact plain ⟨rfl, by simpa [UInt8.lt_iff_toNat_lt] using low⟩

theorem uint_took (read : Stream.uint 64 s = (.ok value, t)) :
    value < 2 ^ 64 ∧ t.kind = none ∧ Took t data stack (integer value) := by
  obtain ⟨⟨kind, size⟩, mid, ahead, decoded⟩ := StreamM.bind_eq_ok read
  obtain ⟨announced, room⟩ := kindAhead_announces place fresh ahead
  rcases announced with ⟨rfl, rfl, low, took⟩ | ⟨headed, range, took⟩
  · obtain ⟨_, _, got, checked⟩ := StreamM.bind_eq_ok decoded
    cases got
    split at checked
    · cases checked
    next nonzero =>
      cases checked
      obtain ⟨rest, same, room, after⟩ := took
      have positive : 0 < mid.byteval.toNat := by
        rw [Nat.pos_iff_ne_zero, Ne, ← UInt8.toNat_zero, UInt8.toNat_inj]
        exact nonzero
      have spelled : natBytes mid.byteval.toNat = [mid.byteval] := by
        rw [natBytes_of_small positive low, UInt8.ofNat_toNat]
      rw [integer, string, if_pos (isSingle_natBytes_iff.mpr ⟨positive, low⟩), spelled]
      exact ⟨by omega, rfl, rest, same, room, after.holds, after.limit, after.open_lists⟩
  · cases kind with
    | byte => exact absurd rfl headed
    | list => cases decoded
    | string =>
      simp only at decoded
      split at decoded
      · cases decoded
      next short =>
        obtain ⟨result, last, attempted, same⟩ := StreamM.bind_eq_ok decoded
        cases result with
        | error err => cases same
        | ok number =>
          simp only at same
          split at same
          · cases same
          next canonical =>
            cases same
            have taken := StreamM.attempt_eq_ok attempted
            obtain ⟨rest, rfl, headRoom, after⟩ := took
            rcases Nat.eq_zero_or_pos size with rfl | positive
            · -- no content at all is zero
              have isZero : value = 0 ∧ t = { mid with kind := none } := by
                cases taken
                exact ⟨rfl, rfl⟩
              obtain ⟨rfl, rfl⟩ := isZero
              refine ⟨by decide, rfl, rest, rfl, headRoom, after.holds, after.limit,
                after.open_lists⟩
            · have large : 128 ≤ value := by omega
              obtain ⟨width, unkinded, content_took⟩ :=
                readUint_took after positive (by omega) taken
              have plain : ¬ IsSingle (natBytes value) := fun single =>
                absurd (isSingle_natBytes_iff.mp single).2 (not_lt.mpr large)
              have bound : 256 ^ byteLen value ≤ 256 ^ 8 :=
                Nat.pow_le_pow_right (by decide) (by omega)
              refine ⟨(lt_pow_byteLen value).trans_le bound, unkinded, ?_⟩
              rw [integer, string, if_neg plain, length_natBytes, width]
              exact content_took.append

theorem list_took (read : Stream.list s = (.ok size, t)) :
    size < 2 ^ 64 ∧ t.kind = none ∧ ∃ rest, data = header 0xC0 0xF7 size ++ rest ∧
      Room ((header 0xC0 0xF7 size).length + size) stack ∧
      Before t rest (⟨0, size⟩ :: advance (header 0xC0 0xF7 size).length stack) := by
  obtain ⟨⟨kind, size'⟩, mid, ahead, value⟩ := StreamM.bind_eq_ok read
  obtain ⟨announced, room⟩ := kindAhead_announces place fresh ahead
  simp only at value
  split at value
  · cases value
  next isList =>
    obtain rfl : kind = .list := not_not.mp isList
    cases value
    rcases announced with ⟨impossible, -⟩ | ⟨-, range, rest, same, -, after⟩
    · cases impossible
    · rw [after.open_lists] at room
      exact ⟨range, rfl, rest, same, room_advance_iff.mp room, after.holds, after.limit,
        congrArg _ after.open_lists⟩

end

theorem listEnd_took {tos : ListPos} (place : Before s data (tos :: stack))
    (read : Stream.listEnd s = (.ok (), t)) :
    tos.pos = tos.size ∧ t.kind = none ∧ Before t data (advance tos.size stack) := by
  have closed : tos.pos = tos.size := by
    unfold Stream.listEnd at read
    rw [place.open_lists] at read
    by_contra other
    simp [other] at read
  obtain ⟨pos, size⟩ := tos
  dsimp only at closed place ⊢
  subst closed
  obtain ⟨u, forward, fresh, after⟩ := listEnd_at place
  rw [forward] at read
  cases read
  exact ⟨rfl, fresh, after⟩

end Stream
end Inversion

/-! ### The end of a list -/

/-- A call that never reports the end of a list. -/
def NotEol {α : Type} (call : StreamM BytesReader α) : Prop := ∀ s t, call s ≠ (.err .eol, t)

section EndOfList

variable {α β : Type} {s t : Stream BytesReader}

theorem notEol_bind {call : StreamM BytesReader α} {next : α → StreamM BytesReader β}
    (first : NotEol call) (others : ∀ value, NotEol (next value)) : NotEol (call >>= next) := by
  intro s t ended
  rcases StreamM.bind_eq_err ended with fails | ⟨value, mid, -, fails⟩
  · exact first s t fails
  · exact others value mid t fails

theorem notEol_pure (value : α) : NotEol (pure value : StreamM BytesReader α) := by
  intro s t ended
  cases ended

theorem notEol_fail (other : err ≠ .eol) : NotEol (StreamM.fail err : StreamM BytesReader α) := by
  intro s t ended
  cases ended
  exact other rfl

theorem notEol_attempt (call : StreamM BytesReader α) : NotEol (StreamM.attempt call) := by
  intro s t ended
  unfold StreamM.attempt at ended
  split at ended <;> cases ended

theorem unexpected_ne_eol (err : IoErr) : Stream.unexpected err ≠ .eol := by
  cases err <;> simp [Stream.unexpected]

namespace Stream

theorem notEol_willRead (n : Nat) : NotEol (willRead n) := by
  have limited : NotEol (checkLimit n) := by
    intro s t ended
    unfold checkLimit at ended
    split at ended
    · split at ended <;> cases ended
    · cases ended
  intro s t ended
  unfold willRead at ended
  split at ended
  · exact limited _ _ ended
  · split at ended
    · cases ended
    · exact limited _ _ ended

theorem notEol_readByte : NotEol readByte := by
  refine notEol_bind (notEol_willRead 1) fun _ s t ended => ?_
  unfold nextByte at ended
  split at ended
  · cases ended
  next err _ _ =>
    simp only [Prod.mk.injEq, Outcome.err.injEq] at ended
    exact unexpected_ne_eol err ended.1

theorem notEol_readFull (size : Nat) : NotEol (readFull size) := by
  refine notEol_bind (notEol_willRead size) fun _ s t ended => ?_
  unfold fillSlice at ended
  split at ended
  · cases ended
  next err _ _ =>
    simp only [Prod.mk.injEq, Outcome.err.injEq] at ended
    exact unexpected_ne_eol err ended.1

theorem notEol_readUint (size : Nat) : NotEol (readUint size) := by
  unfold readUint
  split
  · refine notEol_bind ?_ fun _ => notEol_pure _
    intro s t ended
    cases ended
  · split
    · exact notEol_bind notEol_readByte fun _ => notEol_pure _
    · refine notEol_bind (notEol_readFull size) fun bytes => ?_
      split
      · exact notEol_fail (by decide)
      · exact notEol_pure _

theorem ne_eol_of_attempt {call : StreamM BytesReader α} (never : NotEol call)
    (attempted : StreamM.attempt call s = (.ok (.error err), t)) : err ≠ .eol := by
  rintro rfl
  exact never _ _ (StreamM.attempt_eq_err attempted)

theorem readSize_ne_eol (read : readSize sizesize s = (.ok (size, some err), t)) : err ≠ .eol := by
  obtain ⟨result, mid, attempted, same⟩ := StreamM.bind_eq_ok read
  cases result with
  | error other =>
    cases same
    exact ne_eol_of_attempt (notEol_readUint sizesize) attempted
  | ok value =>
    simp only at same
    split at same <;> cases same
    decide

theorem tagKind_ne_eol (read : tagKind tag s = (.ok (kind, size, some err), t)) : err ≠ .eol := by
  unfold tagKind at read
  split at read
  · simp at read
  split at read
  · simp at read
  split at read
  · obtain ⟨⟨size, other⟩, mid, sized, same⟩ := StreamM.bind_eq_ok read
    cases same
    exact readSize_ne_eol sized
  split at read
  · simp at read
  · obtain ⟨⟨size, other⟩, mid, sized, same⟩ := StreamM.bind_eq_ok read
    cases same
    exact readSize_ne_eol sized

theorem readKind_ne_eol (read : readKind s = (.ok (kind, size, some err), t)) : err ≠ .eol := by
  obtain ⟨_, _, got, tagged⟩ := StreamM.bind_eq_ok read
  cases got
  obtain ⟨result, mid, attempted, same⟩ := StreamM.bind_eq_ok tagged
  cases result with
  | error other =>
    cases same
    have never := ne_eol_of_attempt notEol_readByte attempted
    unfold adjust
    split
    · decide
    · exact never
  | ok byte =>
    obtain ⟨_, _, -, rest⟩ := StreamM.bind_eq_ok same
    exact tagKind_ne_eol rest

theorem notEol_readKind : NotEol readKind := by
  have sizes : ∀ sizesize, NotEol (readSize sizesize) := by
    intro sizesize
    refine notEol_bind (notEol_attempt _) fun result => ?_
    cases result <;> exact notEol_pure _
  refine notEol_bind (fun s t ended => by cases ended) fun before => ?_
  refine notEol_bind (notEol_attempt _) fun result => ?_
  cases result with
  | error err => exact notEol_pure _
  | ok byte =>
    refine notEol_bind (fun s t ended => by cases ended) fun _ => ?_
    unfold tagKind
    split
    · exact notEol_pure _
    split
    · exact notEol_pure _
    split
    · exact notEol_bind (sizes _) fun _ => notEol_pure _
    split
    · exact notEol_pure _
    · exact notEol_bind (sizes _) fun _ => notEol_pure _

/-- The end of the list is reported before anything has been read. -/
theorem eq_of_kindAhead_eol (fresh : s.kind = none) (ended : kindAhead s = (.err .eol, t)) :
    t = { s with kinderr := none } := by
  unfold kindAhead at ended
  rw [fresh] at ended
  simp only at ended
  split at ended
  · cases ended
    rw [fresh]
  · split at ended
    next kind size err mid read =>
      split at ended
      next failed =>
        simp only [Prod.mk.injEq, Outcome.err.injEq] at ended
        obtain ⟨rfl, -⟩ := ended
        cases err with
        | some err =>
          cases failed
          exact absurd rfl (readKind_ne_eol read)
        | none =>
          exfalso
          rw [Option.none_or, checkSize] at failed
          split at failed <;> split at failed <;> cases failed
      · cases ended
    next err mid fails =>
      cases ended
      exact absurd fails (notEol_readKind _ _)
    · cases ended

theorem eq_of_bytes_eol (fresh : s.kind = none) (ended : Stream.bytes s = (.err .eol, t)) :
    t = { s with kinderr := none } := by
  rcases StreamM.bind_eq_err ended with fails | ⟨⟨kind, size⟩, mid, -, later⟩
  · exact eq_of_kindAhead_eol fresh fails
  · exfalso
    cases kind with
    | byte => cases later
    | list => cases later
    | string =>
      simp only at later
      split at later
      · cases later
      · refine notEol_bind (notEol_readFull size) (fun bytes => ?_) _ _ later
        split
        · exact notEol_fail (by decide)
        · exact notEol_pure _

end Stream
end EndOfList

/-! ### Lists of strings -/

section Lists

variable {α : Type} {s t : Stream BytesReader} {data : Bytes} {stack : List ListPos}

/-- A decoder whose values are of one kind and have been written as strings. -/
structure ElemReads (elemdec : StreamM BytesReader α) (spelled : α → Bytes) (Good : α → Prop) :
    Prop where
  took : ∀ {s t : Stream BytesReader} {data : Bytes} {stack : List ListPos} {item : α},
    s.kind = none → Before s data stack → elemdec s = (.ok item, t) →
    t.kind = none ∧ Good item ∧ Took t data stack (string (spelled item))
  ended : ∀ {s t : Stream BytesReader}, s.kind = none → elemdec s = (.err .eol, t) →
    t = { s with kinderr := none }

theorem eq_eol_of_wrap (wrapped : wrapStreamError typ err = .eol) : err = .eol := by
  cases err <;> simp [wrapStreamError] at wrapped ⊢

theorem decodeByteSlice_reads : ElemReads decodeByteSlice id fun _ => True where
  took := by
    intro s t data stack item fresh place read
    obtain ⟨unkinded, took⟩ := Stream.bytes_took place fresh (StreamM.mapErr_eq_ok_iff.mp read)
    exact ⟨unkinded, trivial, took⟩
  ended := by
    intro s t fresh ended
    obtain ⟨cause, fails, wrapped⟩ := StreamM.mapErr_eq_err ended
    rw [eq_eol_of_wrap wrapped] at fails
    exact Stream.eq_of_bytes_eol fresh fails

theorem decodeBigInt_reads : ElemReads decodeBigInt spellInt fun item => 0 ≤ item where
  took := by
    intro s t data stack item fresh place read
    obtain ⟨bytes, mid, taken, checked⟩ := StreamM.bind_eq_ok read
    obtain ⟨unkinded, took⟩ := Stream.bytes_took place fresh (StreamM.mapErr_eq_ok_iff.mp taken)
    split at checked
    · cases checked
    next leading =>
      cases checked
      have spelled : spellInt (beNat bytes : Int) = bytes := by
        rw [spellInt, Int.toNat_natCast]
        cases bytes with
        | nil => rfl
        | cons first more => exact natBytes_beNat fun zero => leading (zero ▸ rfl)
      rw [spelled]
      exact ⟨unkinded, Int.natCast_nonneg _, took⟩
  ended := by
    intro s t fresh ended
    rcases StreamM.bind_eq_err ended with fails | ⟨bytes, mid, -, later⟩
    · obtain ⟨cause, failed, wrapped⟩ := StreamM.mapErr_eq_err fails
      rw [eq_eol_of_wrap wrapped] at failed
      exact Stream.eq_of_bytes_eol fresh failed
    · split at later
      · cases later
      · simp at later

section Elements

variable {elemdec : StreamM BytesReader α} {spelled : α → Bytes} {Good : α → Prop}

section

variable (reads : ElemReads elemdec spelled Good)

include reads

/-- The elements of a list have been taken one after the other. -/
theorem decodeSliceElems_took {i : Nat} {items : List α} (fresh : s.kind = none)
    (place : Before s data stack) (room : Room 0 stack)
    (read : decodeSliceElems elemdec rounds i s = (.ok items, t)) :
    t.kind = none ∧ (∀ item ∈ items, Good item) ∧
      Took t data stack (items.flatMap (string ∘ spelled)) := by
  induction rounds generalizing s data stack i items with
  | zero => cases read
  | succ rounds ih =>
    obtain ⟨result, mid, attempted, others⟩ := StreamM.bind_eq_ok read
    cases result with
    | error err =>
      simp only at others
      split at others
      next isEnd =>
        cases others
        have fails : elemdec s = (.err .eol, t) := isEnd ▸ StreamM.attempt_eq_err attempted
        rw [reads.ended fresh fails]
        refine ⟨fresh, by simp, data, rfl, room, place.holds, place.limit, ?_⟩
        simpa using place.open_lists
      · cases others
    | ok item =>
      obtain ⟨more, last, rest_read, same⟩ := StreamM.bind_eq_ok others
      cases same
      obtain ⟨unkinded, good, rest, rfl, itemRoom, after⟩ :=
        reads.took fresh place (StreamM.attempt_eq_ok attempted)
      obtain ⟨closed, goods, took⟩ := ih unkinded after (room_advance_iff.mpr itemRoom) rest_read
      refine ⟨closed, ?_, took.append⟩
      intro other member
      rcases List.mem_cons.mp member with rfl | member
      · exact good
      · exact goods other member

theorem decodeSliceElems_rounds {pos more : Nat} (i : Nat) (fresh : s.kind = none)
    (place : Before s data (⟨pos, size⟩ :: stack)) (enough : size - pos < rounds)
    (least : rounds ≤ more) :
    decodeSliceElems elemdec rounds i s = decodeSliceElems elemdec more i s := by
  induction rounds generalizing s data pos more i with
  | zero => omega
  | succ rounds ih =>
    obtain ⟨more, rfl⟩ : ∃ m, more = m + 1 := ⟨more - 1, by omega⟩
    refine StreamM.bind_congr_right fun result mid attempted => ?_
    cases result with
    | error err => rfl
    | ok item =>
      obtain ⟨unkinded, -, rest, rfl, room, after⟩ :=
        reads.took fresh place (StreamM.attempt_eq_ok attempted)
      have positive := List.length_pos_iff.mpr (string_ne_nil (spelled item))
      dsimp only [Room, advance] at room after
      exact StreamM.bind_congr_left (ih (i + 1) unkinded after (by omega) (by omega))

theorem decodeListSlice_took {items : List α} (fresh : s.kind = none) (place : Before s data stack)
    (read : decodeListSlice typ elemdec s = (.ok items, t)) :
    t.kind = none ∧ (∀ item ∈ items, Good item) ∧
      Took t data stack (Lib.Rlp.list (items.flatMap (string ∘ spelled))) := by
  obtain ⟨size, mid, opened, inner⟩ := StreamM.bind_eq_ok read
  obtain ⟨-, unkinded, rest, rfl, room, inside⟩ :=
    Stream.list_took place fresh (StreamM.mapErr_eq_ok_iff.mp opened)
  split at inner
  next isZero =>
    subst isZero
    obtain ⟨_, last, closes, same⟩ := StreamM.bind_eq_ok inner
    cases same
    obtain ⟨-, closed, after⟩ := Stream.listEnd_took inside closes
    rw [advance_advance] at after
    exact ⟨closed, by simp, rest, by simp [Lib.Rlp.list], by simpa [Lib.Rlp.list] using room,
      by simpa [Lib.Rlp.list] using after⟩
  · obtain ⟨items', u, taken, tail⟩ := StreamM.bind_eq_ok inner
    obtain ⟨_, last, closes, same⟩ := StreamM.bind_eq_ok tail
    cases same
    obtain ⟨-, goods, rest, rfl, -, after⟩ :=
      decodeSliceElems_took reads unkinded inside (Nat.zero_le _) taken
    obtain ⟨whole, closed, final⟩ := Stream.listEnd_took after closes
    -- the header had the size of the elements
    simp only [Nat.zero_add] at whole
    subst whole
    rw [advance_advance] at final
    refine ⟨closed, goods, rest, ?_, ?_, ?_⟩
    · rw [Lib.Rlp.list, List.append_assoc]
    · rw [Lib.Rlp.list, List.length_append]
      exact room
    · rw [Lib.Rlp.list, List.length_append]
      exact final

end

end Elements
end Lists

/-! ### Messages -/

/-- A message has been taken off the input as its own encoding. -/
theorem decodeMpcMessage_took (fresh : s.kind = none) (place : Before s data [])
    (read : decodeMpcMessage s = (.ok msg, t)) :
    msg.contextID < 2 ^ 64 ∧ msg.stepID < 2 ^ 64 ∧ (∀ item ∈ msg.data, 0 ≤ item) ∧
      ∃ rest, data = wire msg ++ rest ∧ Before t rest [] := by
  obtain ⟨size, s₁, opened, read⟩ := StreamM.bind_eq_ok read
  obtain ⟨contextID, s₂, field₁, read⟩ := StreamM.bind_eq_ok read
  obtain ⟨stepID, s₃, field₂, read⟩ := StreamM.bind_eq_ok read
  obtain ⟨peers, s₄, field₃, read⟩ := StreamM.bind_eq_ok read
  obtain ⟨items, s₅, field₄, read⟩ := StreamM.bind_eq_ok read
  obtain ⟨bytesItems, s₆, field₅, read⟩ := StreamM.bind_eq_ok read
  obtain ⟨_, s₇, closes, same⟩ := StreamM.bind_eq_ok read
  cases same
  simp only [decodeField, decodeUint, StreamM.mapErr_eq_ok_iff] at opened field₁ field₂
  simp only [decodeField, decodeByteSlice, StreamM.mapErr_eq_ok_iff] at field₃
  simp only [decodeField, StreamM.mapErr_eq_ok_iff] at field₄ field₅ closes
  obtain ⟨-, fresh₁, rest, rfl, -, place₁⟩ := Stream.list_took place fresh opened
  obtain ⟨range₁, fresh₂, took₁⟩ := Stream.uint_took place₁ fresh₁ field₁
  obtain ⟨rest, rfl, -, place₂⟩ := took₁
  obtain ⟨range₂, fresh₃, took₂⟩ := Stream.uint_took place₂ fresh₂ field₂
  obtain ⟨rest, rfl, -, place₃⟩ := took₂
  obtain ⟨fresh₄, took₃⟩ := Stream.bytes_took place₃ fresh₃ field₃
  obtain ⟨rest, rfl, -, place₄⟩ := took₃
  obtain ⟨fresh₅, nonneg, took₄⟩ := decodeListSlice_took decodeBigInt_reads fresh₄ place₄ field₄
  obtain ⟨rest, rfl, -, place₅⟩ := took₄
  obtain ⟨-, -, took₅⟩ := decodeListSlice_took decodeByteSlice_reads fresh₅ place₅ field₅
  obtain ⟨rest, rfl, -, place₆⟩ := took₅
  simp only [advance_advance] at place₆
  obtain ⟨whole, -, place₇⟩ := Stream.listEnd_took place₆ closes
  dsimp only at whole
  refine ⟨range₁, range₂, nonneg, rest, ?_, place₇⟩
  -- the header of the message had the size of its fields
  have sized : size = (fields ⟨contextID, stepID, peers, items, bytesItems⟩).length := by
    rw [← whole]
    simp only [fields, List.length_append, Nat.add_assoc, Nat.zero_add]
    rfl
  have spelled : wire ⟨contextID, stepID, peers, items, bytesItems⟩ =
      header 0xC0 0xF7 size ++ fields ⟨contextID, stepID, peers, items, bytesItems⟩ := by
    rw [sized]
    rfl
  rw [spelled]
  simp only [fields, List.append_assoc]
  rfl

theorem decodeBytes_wire {b : Bytes} (accepted : decodeBytes b = .ok msg) :
    b = wire msg ∧ msg.contextID < 2 ^ 64 ∧ msg.stepID < 2 ^ 64 ∧ ∀ item ∈ msg.data, 0 ≤ item := by
  have start : Before (Stream.ofBytes b) b [] := ⟨rfl, fun _ => rfl, rfl⟩
  unfold decodeBytes at accepted
  split at accepted
  next value t read =>
    split at accepted
    · cases accepted
    next ended =>
      cases accepted
      obtain ⟨contextID, stepID, nonneg, rest, same, after⟩ :=
        decodeMpcMessage_took rfl start (StreamM.mapErr_eq_ok_iff.mp read)
      have nothing : rest = [] := by
        rw [← show t.r.unread = rest from after.holds]
        exact not_not.mp ended
      rw [nothing, List.append_nil] at same
      exact ⟨same, contextID, stepID, nonneg⟩
  · cases accepted
  · cases accepted

end SchnorrMpc.Rlp
