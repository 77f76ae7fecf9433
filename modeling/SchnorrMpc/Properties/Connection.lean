import SchnorrMpc.Lib.Codec
import SchnorrMpc.P2p.Frame

/-!
# Two ends of a connection

Both ends of a connection start with the same secrets and with hashes that
mirror each other. Then whatever one end writes is read by the other one, in
order and unchanged, however the bytes arrive and however the two take turns.

## Main results

* `RlpxFrameRW.readMsg_writeMsg`: what one end writes the other one reads, and both stay in step.
* `RlpxFrameRW.readMsg_append`: a read waits, or does not look at what comes later.
-/
namespace SchnorrMpc.P2p

open Lib Rlp

/-- What is known of the compression. -/
structure SnappyLaw (env : WireEnv) : Prop where
  decodedLen : ∀ plain : Bytes, plain.length ≤ maxUint24 →
    env.snappyDecodedLen (env.snappyEncode plain) = .ok plain.length
  decode : ∀ plain : Bytes, plain.length ≤ maxUint24 →
    env.snappyDecode (env.snappyEncode plain) = .ok plain
  /-- The bound of `MaxEncodedLen`. -/
  length_le : ∀ plain, (env.snappyEncode plain).length ≤ 32 + plain.length + plain.length / 6

/-- A message as `Send` makes it. The size with the code in front of it must not wrap around in
32 bits, or a frame that is too long passes the check of its size. -/
structure Msg.Proper (msg : Msg) : Prop where
  code : msg.code < 2 ^ 64
  size : msg.size = msg.payload.length
  short : msg.payload.length + 9 < 2 ^ 32

namespace RlpxFrameRW

variable {env : WireEnv} {rw rw' peer peer' : RlpxFrameRW} {msg : Msg} {frame body more : Bytes}

/-- One end is to write what the other one is to read. -/
structure Feeds (rw peer : RlpxFrameRW) : Prop where
  aes : peer.aes = rw.aes
  macCipher : peer.macCipher = rw.macCipher
  snappy : peer.snappy = rw.snappy
  place : peer.dec = rw.enc
  mac : peer.ingressMAC = rw.egressMAC

@[simp] theorem length_updateMAC (mac block seed : Bytes) :
    (updateMAC env mac block seed).1.length = 16 := by
  simp only [updateMAC, List.length_take, (env.keccak256 _).property]
  rfl

/-- The content of the frame of a message, before the padding. -/
def bodyOf (env : WireEnv) (rw : RlpxFrameRW) (msg : Msg) : Bytes :=
  integer msg.code ++ if rw.snappy then env.snappyEncode msg.payload else msg.payload

/-- The frame of a content, and the writer after it. -/
def frameOf (env : WireEnv) (rw : RlpxFrameRW) (body : Bytes) : Bytes × RlpxFrameRW :=
  let headbuf := xorKeyStream (keyStream env rw.aes) rw.enc
    (putInt24 body.length ++ zeroHeader ++ List.replicate 10 0)
  let head := updateMAC env rw.egressMAC rw.macCipher headbuf
  let content := xorKeyStream (keyStream env rw.aes) (rw.enc + 16)
    (body ++ List.replicate (padding body.length) 0)
  let tail := updateMAC env (head.2 ++ content) rw.macCipher (env.keccak256 (head.2 ++ content)).val
  (headbuf ++ head.1 ++ content ++ tail.1,
    { rw with enc := rw.enc + 16 + content.length, egressMAC := tail.2 })

/-- Which messages are written, and how. -/
theorem writeMsg_eq (law : SnappyLaw env) (proper : msg.Proper) :
    rw.writeMsg env msg =
      if rw.snappy ∧ maxUint24 < msg.payload.length then .err .plainMessageTooLarge
      else if maxUint24 < (bodyOf env rw msg).length then .err .sizeOverflowsUint24
      else .ok (frameOf env rw (bodyOf env rw msg)) := by
  have short := proper.short
  have codeLength := length_integer_le proper.code
  have encodedLength := law.length_le msg.payload
  simp only [writeMsg, encodeCode_eq proper.code, Outcome.ok_bind, Outcome.pure_eq, proper.size,
    gt_iff_lt]
  cases isSnappy : rw.snappy with
  | false =>
    have size : ((integer msg.code).length + msg.payload.length) % 2 ^ 32 =
        (bodyOf env rw msg).length := by
      rw [Nat.mod_eq_of_lt (by omega)]
      simp [bodyOf, isSnappy]
    simp only [Bool.false_eq_true, if_false, false_and, size]
    split
    · rfl
    · simp [frameOf, bodyOf, isSnappy, List.append_assoc]
  | true =>
    simp only [if_true, true_and]
    by_cases large : maxUint24 < msg.payload.length
    · simp [large]
    have small : msg.payload.length < 2 ^ 24 := by
      unfold maxUint24 at large
      omega
    have size : ((integer msg.code).length + (env.snappyEncode msg.payload).length % 2 ^ 32)
        % 2 ^ 32 = (bodyOf env rw msg).length := by
      rw [Nat.mod_eq_of_lt (b := 2 ^ 32) (by omega), Nat.mod_eq_of_lt (by omega)]
      simp [bodyOf, isSnappy]
    simp only [large, if_false, size]
    split
    · rfl
    · simp [frameOf, bodyOf, isSnappy, List.append_assoc]

theorem readFull_append {part rest : Bytes} {size : Nat} (isLength : part.length = size) :
    readFull size (part ++ rest) = .ok (part, rest) := by
  subst isLength
  simp [readFull]

def afterFrame (env : WireEnv) (rw peer : RlpxFrameRW) (body : Bytes) : RlpxFrameRW :=
  { peer with dec := (frameOf env rw body).2.enc, ingressMAC := (frameOf env rw body).2.egressMAC }

theorem Feeds.afterFrame (feeds : rw.Feeds peer) (env : WireEnv) (body : Bytes) :
    (frameOf env rw body).2.Feeds (afterFrame env rw peer body) :=
  ⟨feeds.aes, feeds.macCipher, feeds.snappy, rfl, rfl⟩

/-- A frame is read by the peer, whatever comes after it. -/
theorem readMsg_frameOf (env : WireEnv) (feeds : rw.Feeds peer) (fits : body.length ≤ maxUint24)
    (rest : Bytes) : peer.readMsg env ((frameOf env rw body).1 ++ rest) = (do
      let msg ← openContent env peer.snappy body
      pure (msg, afterFrame env rw peer body, rest)) := by
  obtain ⟨aes, enc, dec, macCipher, egressMAC, ingressMAC, snappy⟩ := rw
  obtain ⟨aes', enc', dec', macCipher', egressMAC', ingressMAC', snappy'⟩ := peer
  obtain ⟨rfl, rfl, rfl, rfl, rfl⟩ := feeds
  simp only [frameOf, afterFrame, readMsg]
  generalize isHead : xorKeyStream (keyStream env aes') dec'
    (putInt24 body.length ++ zeroHeader ++ List.replicate 10 0) = headbuf
  have headLength : headbuf.length = 16 := by
    rw [← isHead, length_xorKeyStream]
    rfl
  generalize isContent : xorKeyStream (keyStream env aes') (dec' + 16)
    (body ++ List.replicate (padding body.length) 0) = content
  have contentLength : content.length = body.length + padding body.length := by
    rw [← isContent, length_xorKeyStream, List.length_append, List.length_replicate]
  simp only [List.append_assoc]
  rw [← List.append_assoc headbuf, readFull_append (by simp [headLength])]
  simp only [Outcome.ok_bind, List.take_left' headLength, List.drop_left' headLength, ne_eq,
    not_true_eq_false, if_false]
  rw [← isHead, xorKeyStream_twice, List.append_assoc, readInt24_putInt24 fits,
    readFull_append contentLength]
  simp only [Outcome.ok_bind]
  rw [readFull_append (length_updateMAC _ _ _)]
  simp only [Outcome.ok_bind, not_true_eq_false, if_false]
  rw [← isContent, xorKeyStream_twice, List.take_left' rfl, contentLength.symm.trans
    (congrArg List.length isContent.symm)]

theorem openContent_bodyOf (law : SnappyLaw env) (rw : RlpxFrameRW) (proper : msg.Proper)
    (fits : rw.snappy = true → msg.payload.length ≤ maxUint24) :
    openContent env rw.snappy (bodyOf env rw msg) = .ok msg := by
  obtain ⟨code, size, payload⟩ := msg
  obtain ⟨inRange, isSize, short⟩ := proper
  dsimp only at inRange isSize short fits
  have whole : payload.length % 2 ^ 32 = size := by
    rw [isSize, Nat.mod_eq_of_lt (by omega)]
  simp only [openContent, bodyOf, decodeCode_eq inRange, Outcome.ok_bind]
  cases isSnappy : rw.snappy with
  | false => simp only [Bool.false_eq_true, if_false, whole, Outcome.pure_eq]
  | true =>
    have small : ¬payload.length > maxUint24 := Nat.not_lt.mpr (fits isSnappy)
    simp only [if_true, law.decodedLen payload (fits isSnappy), law.decode payload (fits isSnappy),
      liftSnappy, Outcome.pure_eq, Outcome.ok_bind, small, if_false, whole]

theorem readMsg_writeMsg (law : SnappyLaw env) (feeds : rw.Feeds peer) (proper : msg.Proper)
    (writes : rw.writeMsg env msg = .ok (frame, rw')) :
    ∃ peer', (∀ rest, peer.readMsg env (frame ++ rest) = .ok (msg, peer', rest)) ∧
      rw'.Feeds peer' := by
  rw [writeMsg_eq law proper] at writes
  split at writes
  · cases writes
  next notLarge =>
    split at writes
    · cases writes
    next fits =>
      have isFrame : frameOf env rw (bodyOf env rw msg) = (frame, rw') := Outcome.ok.inj writes
      refine ⟨afterFrame env rw peer (bodyOf env rw msg), fun rest => ?_, ?_⟩
      · have opened := openContent_bodyOf law rw proper fun isSnappy =>
          Nat.not_lt.mp fun large => notLarge ⟨isSnappy, large⟩
        have read := readMsg_frameOf env feeds (Nat.not_lt.mp fits) rest
        rwa [isFrame, feeds.snappy, opened] at read
      · have after := feeds.afterFrame env (bodyOf env rw msg)
        rwa [isFrame] at after

/-! ### Reading what has arrived so far -/

theorem readFull_cases (size : Nat) (input more : Bytes) :
    readFull size input = .err .shortRead ∨ ∃ part rest, readFull size input = .ok (part, rest) ∧
      readFull size (input ++ more) = .ok (part, rest ++ more) := by
  unfold readFull
  by_cases short : input.length < size
  · exact .inl (if_pos short)
  · have enough : size ≤ input.length := Nat.not_lt.mp short
    have longer : ¬(input ++ more).length < size := by
      rw [List.length_append]
      omega
    refine .inr ⟨input.take size, input.drop size, if_neg short, ?_⟩
    rw [if_neg longer, List.take_append_of_le_length enough, List.drop_append_of_le_length enough]
    rfl

/-- A read waits for more, or it does not look at what comes after its message. -/
theorem readMsg_append (env : WireEnv) (rw : RlpxFrameRW) (input more : Bytes) :
    rw.readMsg env input = .err .shortRead ∨
      rw.readMsg env (input ++ more) = (do
        let (msg, rw', rest) ← rw.readMsg env input
        pure (msg, rw', rest ++ more)) := by
  unfold readMsg
  rcases readFull_cases 32 input more with short | ⟨headbuf, input₁, isHead, isHead'⟩
  · exact .inl (by rw [short]; rfl)
  rw [isHead, isHead']
  simp only [Outcome.ok_bind]
  split
  · exact .inr rfl
  rcases readFull_cases (readInt24 (xorKeyStream (keyStream env rw.aes) rw.dec (headbuf.take 16)) +
    padding (readInt24 (xorKeyStream (keyStream env rw.aes) rw.dec (headbuf.take 16)))) input₁ more
    with short | ⟨framebuf, input₂, isFrame, isFrame'⟩
  · exact .inl (by rw [short]; rfl)
  rw [isFrame, isFrame']
  simp only [Outcome.ok_bind]
  rcases readFull_cases 16 input₂ more with short | ⟨tag, input₃, isTag, isTag'⟩
  · exact .inl (by rw [short]; rfl)
  rw [isTag, isTag']
  simp only [Outcome.ok_bind]
  split
  · exact .inr rfl
  right
  cases openContent env rw.snappy _ <;> rfl

/-! ### The two directions of one end -/

def outgoing (rw : RlpxFrameRW) : RlpxFrameRW := { rw with dec := 0, ingressMAC := [] }

def incoming (rw : RlpxFrameRW) : RlpxFrameRW := { rw with enc := 0, egressMAC := [] }

theorem writeMsg_outgoing (law : SnappyLaw env) (proper : msg.Proper)
    (writes : rw.writeMsg env msg = .ok (frame, rw')) :
    rw.outgoing.writeMsg env msg = .ok (frame, rw'.outgoing) ∧ rw'.incoming = rw.incoming := by
  have sameBody : bodyOf env rw.outgoing msg = bodyOf env rw msg := rfl
  have sameFlag : rw.outgoing.snappy = rw.snappy := rfl
  rw [writeMsg_eq law proper] at writes ⊢
  rw [sameBody, sameFlag]
  split at writes
  · cases writes
  next notLarge =>
    rw [if_neg notLarge]
    split at writes
    · cases writes
    next fits =>
      rw [if_neg fits]
      cases writes
      exact ⟨rfl, rfl⟩

theorem readMsg_incoming (env : WireEnv) (rw : RlpxFrameRW) (input : Bytes) :
    rw.incoming.readMsg env input = (do
      let (msg, rw', rest) ← rw.readMsg env input
      pure (msg, rw'.incoming, rest)) := by
  obtain ⟨aes, enc, dec, macCipher, egressMAC, ingressMAC, snappy⟩ := rw
  unfold readMsg
  dsimp only [incoming]
  cases readFull 32 input with
  | err err => rfl
  | panic => rfl
  | ok head =>
    simp only [Outcome.ok_bind]
    split
    · rfl
    cases readFull _ head.2 with
    | err err => rfl
    | panic => rfl
    | ok frame =>
      simp only [Outcome.ok_bind]
      cases readFull 16 frame.2 with
      | err err => rfl
      | panic => rfl
      | ok tag =>
        simp only [Outcome.ok_bind]
        split
        · rfl
        cases openContent env snappy _ <;> rfl

theorem outgoing_of_readMsg {input rest : Bytes}
    (reads : rw.readMsg env input = .ok (msg, rw', rest)) : rw'.outgoing = rw.outgoing := by
  unfold readMsg at reads
  obtain ⟨⟨headbuf, input₁⟩, -, reads⟩ := (Outcome.bind_eq_ok_iff _ _ _).mp reads
  dsimp only at reads
  split at reads
  · cases reads
  obtain ⟨⟨framebuf, input₂⟩, -, reads⟩ := (Outcome.bind_eq_ok_iff _ _ _).mp reads
  obtain ⟨⟨tag, input₃⟩, -, reads⟩ := (Outcome.bind_eq_ok_iff _ _ _).mp reads
  dsimp only at reads
  split at reads
  · cases reads
  obtain ⟨opened, -, reads⟩ := (Outcome.bind_eq_ok_iff _ _ _).mp reads
  cases reads
  rfl

end RlpxFrameRW

/-! ### The connection -/

/-- One direction of a connection: the bytes on their way and the ones that wait to be read, with
all that has been written and read. -/
structure Pipe where
  flight : Bytes
  arrived : Bytes
  sent : List Msg
  got : List Msg

namespace Pipe

def empty : Pipe := ⟨[], [], [], []⟩

def write (pipe : Pipe) (msg : Msg) (frame : Bytes) : Pipe :=
  { pipe with flight := pipe.flight ++ frame, sent := pipe.sent ++ [msg] }

/-- Some of the bytes arrive, in their order. -/
def arrive (pipe : Pipe) (n : Nat) : Pipe :=
  { pipe with flight := pipe.flight.drop n, arrived := pipe.arrived ++ pipe.flight.take n }

def read (pipe : Pipe) (msg : Msg) (rest : Bytes) : Pipe :=
  { pipe with arrived := rest, got := pipe.got ++ [msg] }

/-- What has been written and not been read yet. -/
def wire (pipe : Pipe) : Bytes := pipe.arrived ++ pipe.flight

end Pipe

structure Connection where
  near : RlpxFrameRW
  far : RlpxFrameRW
  there : Pipe
  back : Pipe

namespace Connection

def swap (c : Connection) : Connection := ⟨c.far, c.near, c.back, c.there⟩

/-- What happens to the messages of the near end. -/
inductive Steps (env : WireEnv) (c : Connection) : Connection → Prop where
  | write {msg : Msg} {frame : Bytes} {rw : RlpxFrameRW} (proper : msg.Proper)
      (writes : c.near.writeMsg env msg = .ok (frame, rw)) :
      Steps env c { c with near := rw, there := c.there.write msg frame }
  | arrive (n : Nat) : Steps env c { c with there := c.there.arrive n }
  | read {msg : Msg} {rest : Bytes} {rw : RlpxFrameRW}
      (reads : c.far.readMsg env c.there.arrived = .ok (msg, rw, rest)) :
      Steps env c { c with far := rw, there := c.there.read msg rest }

/-- Either end writes a message or reads one, or bytes arrive at it. -/
def Moves (env : WireEnv) (c c' : Connection) : Prop := Steps env c c' ∨ Steps env c.swap c'.swap

def Reaches (env : WireEnv) : Connection → Connection → Prop := Relation.ReflTransGen (Moves env)

/-- What holds of the messages of the near end. -/
structure Delivers (env : WireEnv) (c : Connection) : Prop where
  /-- Nothing is lost, doubled, changed or overtaken. -/
  inOrder : c.there.got <+: c.there.sent
  /-- A read waits for more bytes, or gives the next message. -/
  reads : c.far.readMsg env c.there.arrived = .err .shortRead ∨ ∃ msg rw rest,
    c.far.readMsg env c.there.arrived = .ok (msg, rw, rest) ∧ c.there.got ++ [msg] <+: c.there.sent
  /-- It does not wait for more when all has arrived. -/
  complete : c.there.flight = [] → c.far.readMsg env c.there.arrived = .err .shortRead →
    c.there.got = c.there.sent

variable {env : WireEnv} {c c' : Connection}

def frameCodec (env : WireEnv) : Codec UInt8 RlpxFrameRW RlpxFrameRW Msg FrameErr :=
  ⟨RlpxFrameRW.writeMsg env, RlpxFrameRW.readMsg env⟩

theorem frameCodec_inStep (law : SnappyLaw env) :
    (frameCodec env).InStep Msg.Proper RlpxFrameRW.Feeds where
  reads := fun feeds proper writes => RlpxFrameRW.readMsg_writeMsg law feeds proper writes
  waits := fun _ _ _ _ reads => nomatch (show Outcome.err _ = Outcome.ok _ from reads)

/-- The messages of the near end as a line of their own. -/
def line (c : Connection) : Codec.Link UInt8 RlpxFrameRW RlpxFrameRW Msg :=
  ⟨c.near.outgoing, c.far.incoming, c.there.wire, c.there.sent, c.there.got⟩

/-- A step moves the line of the near end at most, and leaves the other one alone. -/
theorem Steps.line (law : SnappyLaw env) (steps : Steps env c c') :
    Codec.Link.Reaches (frameCodec env) Msg.Proper c.line c'.line ∧ c'.swap.line = c.swap.line := by
  cases steps with
  | @write msg frame rw proper writes =>
    obtain ⟨outgoing, incoming⟩ := RlpxFrameRW.writeMsg_outgoing law proper writes
    have moves : Codec.Link.Moves (frameCodec env) Msg.Proper c.line _ := .write proper outgoing
    refine ⟨.single ?_, ?_⟩
    · rw [Connection.line, Pipe.wire] at moves
      simpa [Connection.line, Pipe.wire, Pipe.write] using moves
    · simp only [Connection.line, swap, incoming]
  | arrive n =>
    have same : (c.there.arrive n).wire = c.there.wire := by
      simp [Pipe.arrive, Pipe.wire]
    refine ⟨?_, rfl⟩
    have stays : ({ c with there := c.there.arrive n } : Connection).line = c.line := by
      rw [Connection.line, same]
      rfl
    rw [stays]
    exact .refl
  | @read msg rest rw reads =>
    have reads' : c.far.incoming.readMsg env c.there.wire =
        .ok (msg, rw.incoming, rest ++ c.there.flight) := by
      rcases RlpxFrameRW.readMsg_append env c.far c.there.arrived c.there.flight with waits | more
      · cases reads.symm.trans waits
      · rw [RlpxFrameRW.readMsg_incoming, Pipe.wire, more, reads]
        rfl
    refine ⟨.single (Codec.Link.Moves.read (l := c.line) reads'), ?_⟩
    simp only [Connection.line, swap, RlpxFrameRW.outgoing_of_readMsg reads]

/-- Both lines are in step. -/
def Sound (env : WireEnv) (c : Connection) : Prop :=
  c.line.Sound (frameCodec env) Msg.Proper RlpxFrameRW.Feeds ∧
    c.swap.line.Sound (frameCodec env) Msg.Proper RlpxFrameRW.Feeds

theorem Steps.sound (law : SnappyLaw env) (steps : Steps env c c') (sound : c.Sound env) :
    c'.Sound env := by
  obtain ⟨reaches, same⟩ := steps.line law
  refine ⟨reaches.sound (frameCodec_inStep law) sound.1, ?_⟩
  rw [same]
  exact sound.2

theorem Reaches.sound (law : SnappyLaw env) (reaches : Reaches env c c') (sound : c.Sound env) :
    c'.Sound env := by
  induction reaches with
  | refl => exact sound
  | tail _ last ih =>
    rcases last with steps | steps
    · exact steps.sound law ih
    · exact (steps.sound law ih.symm).symm

theorem delivers_of_sound (law : SnappyLaw env)
    (sound : c.line.Sound (frameCodec env) Msg.Proper RlpxFrameRW.Feeds) : c.Delivers env := by
  have inStep := frameCodec_inStep law
  -- with bytes on the wire the next message is read once they are all there
  have next (busy : c.there.wire ≠ []) : ∃ msg rw rest,
      c.far.readMsg env c.there.wire = .ok (msg, rw, rest) ∧
        c.there.got ++ [msg] <+: c.there.sent := by
    obtain ⟨msg, rw, rest, reads, inOrder⟩ := sound.next inStep busy
    have reads' : c.far.incoming.readMsg env c.there.wire = .ok (msg, rw, rest) := reads
    rw [RlpxFrameRW.readMsg_incoming] at reads'
    obtain ⟨⟨msg', rw', rest'⟩, isRead, same⟩ := (Outcome.bind_eq_ok_iff _ _ _).mp reads'
    cases same
    exact ⟨msg, rw', rest, isRead, inOrder⟩
  have nothing : c.far.readMsg env [] = .err .shortRead := rfl
  refine ⟨sound.inOrder, ?_, fun landed waits => sound.complete inStep ?_⟩
  · rcases RlpxFrameRW.readMsg_append env c.far c.there.arrived c.there.flight with waits | more
    · exact .inl waits
    by_cases idle : c.there.wire = []
    · obtain ⟨noneArrived, -⟩ := List.append_eq_nil_iff.mp idle
      exact .inl (noneArrived ▸ nothing)
    obtain ⟨msg, rw, rest, reads, inOrder⟩ := next idle
    rw [Pipe.wire, more] at reads
    obtain ⟨⟨msg', rw', rest'⟩, isRead, same⟩ := (Outcome.bind_eq_ok_iff _ _ _).mp reads
    cases same
    exact .inr ⟨msg, rw, rest', isRead, inOrder⟩
  · show c.there.wire = []
    by_contra busy
    obtain ⟨msg, rw, rest, reads, -⟩ := next busy
    rw [Pipe.wire, landed, List.append_nil] at reads
    cases reads.symm.trans waits

end Connection

/-- What the two sides of a handshake are to agree on. -/
structure Secrets.Mirrors (s t : Secrets) : Prop where
  aes : t.aes = s.aes
  mac : t.mac = s.mac
  egressMAC : t.ingressMAC = s.egressMAC
  ingressMAC : t.egressMAC = s.ingressMAC

theorem Secrets.Mirrors.feeds {s t : Secrets} {near far : RlpxFrameRW} {ε : Type} (snappy : Bool)
    (mirrors : s.Mirrors t) (isNear : (newRLPXFrameRW s : Outcome ε _) = .ok near)
    (isFar : (newRLPXFrameRW t : Outcome ε _) = .ok far) :
    ({ near with snappy } : RlpxFrameRW).outgoing.Feeds
      ({ far with snappy } : RlpxFrameRW).incoming := by
  unfold newRLPXFrameRW at isNear isFar
  split at isNear <;> [cases isNear; skip]
  split at isNear <;> [cases isNear; skip]
  split at isFar <;> [cases isFar; skip]
  split at isFar <;> [cases isFar; skip]
  cases isNear
  cases isFar
  exact ⟨mirrors.aes, mirrors.mac, rfl, rfl, mirrors.egressMAC⟩

theorem Secrets.Mirrors.symm {s t : Secrets} (mirrors : s.Mirrors t) : t.Mirrors s :=
  ⟨mirrors.aes.symm, mirrors.mac.symm, mirrors.ingressMAC.symm, mirrors.egressMAC.symm⟩

/-- Two ends with mirrored secrets: what either of them writes is read by the other one, once and
in order, and no read fails, whatever proper messages the two write and however writing, arriving
and reading take turns. -/
theorem messages_arrive_in_order {env : WireEnv} (law : SnappyLaw env) {s t : Secrets}
    (mirrors : s.Mirrors t) {near far : RlpxFrameRW} (snappy : Bool)
    (isNear : (newRLPXFrameRW s : Outcome FrameErr _) = .ok near)
    (isFar : (newRLPXFrameRW t : Outcome FrameErr _) = .ok far) {c : Connection}
    (reaches : Connection.Reaches env
      ⟨{ near with snappy }, { far with snappy }, .empty, .empty⟩ c) :
    c.Delivers env ∧ c.swap.Delivers env := by
  have sound : c.Sound env := reaches.sound law
    ⟨Codec.Link.sound_of_together (mirrors.feeds snappy isNear isFar),
      Codec.Link.sound_of_together (mirrors.symm.feeds snappy isFar isNear)⟩
  exact ⟨Connection.delivers_of_sound law sound.1, Connection.delivers_of_sound law sound.2⟩

namespace FrameSample

def env : WireEnv where
  keccak256 := fun bytes => word (beNat bytes)
  aesEncrypt := fun key bytes => block (beNat key + beNat bytes)
  aesCTR := fun key _ place => UInt8.ofNat (beNat key + place)
  snappyEncode := List.reverse
  snappyDecodedLen := fun bytes => .ok bytes.length
  snappyDecode := fun bytes => .ok bytes.reverse

theorem law : SnappyLaw env where
  decodedLen := fun _ _ => congrArg Outcome.ok List.length_reverse
  decode := fun plain _ => congrArg Outcome.ok (List.reverse_reverse plain)
  length_le := fun plain => by
    rw [show env.snappyEncode plain = plain.reverse from rfl, List.length_reverse]
    omega

def secrets : Secrets := ⟨1, (word 5).val, (word 6).val, [1, 2], [3, 4]⟩

def mirrored : Secrets := ⟨2, (word 5).val, (word 6).val, [3, 4], [1, 2]⟩

def near : RlpxFrameRW := ⟨(word 5).val, 0, 0, (word 6).val, [1, 2], [3, 4], false⟩

def far : RlpxFrameRW := ⟨(word 5).val, 0, 0, (word 6).val, [3, 4], [1, 2], false⟩

def msg : Msg := ⟨300, 5, [10, 20, 30, 40, 50]⟩

/-- The near end has written a message, and a part of it has arrived. -/
def halfway : Connection :=
  let (frame, rw) := RlpxFrameRW.frameOf env { near with snappy := true }
    (RlpxFrameRW.bodyOf env { near with snappy := true } msg)
  ⟨rw, { far with snappy := true }, (Pipe.empty.write msg frame).arrive 20, .empty⟩

theorem reaches_halfway : Connection.Reaches env
    ⟨{ near with snappy := true }, { far with snappy := true }, .empty, .empty⟩ halfway := by
  have proper : msg.Proper := ⟨by decide, rfl, by decide⟩
  have writes : RlpxFrameRW.writeMsg env { near with snappy := true } msg =
      .ok (RlpxFrameRW.frameOf env { near with snappy := true }
        (RlpxFrameRW.bodyOf env { near with snappy := true } msg)) := by
    rw [RlpxFrameRW.writeMsg_eq law proper, if_neg (by decide), if_neg (by decide)]
  refine .tail (.single (.inl (.write proper writes))) (.inl ?_)
  exact .arrive 20

end FrameSample

theorem messages_arrive_in_order_halfway :
    FrameSample.halfway.Delivers FrameSample.env ∧
      FrameSample.halfway.swap.Delivers FrameSample.env :=
  messages_arrive_in_order FrameSample.law (s := FrameSample.secrets) (t := FrameSample.mirrored)
    ⟨rfl, rfl, rfl, rfl⟩ true rfl rfl FrameSample.reaches_halfway

end SchnorrMpc.P2p
