import SchnorrMpc.Lib.Cipher
import SchnorrMpc.Protocol.Types
import SchnorrMpc.Rlp.RoundTrip

/-!
# Frames

`rlpxFrameRW` of `p2p/rlpx.go`: every message is one frame of a header, a header
MAC, the encrypted content and a frame MAC. Both directions have a cipher stream
and a hash that run through all frames. A hash is modelled by what has been
written to it; its sum leaves it as it is.
-/
namespace SchnorrMpc.P2p

open Lib Rlp

/-- The functions of other packages that a connection is built with. -/
structure WireEnv where
  keccak256 : Bytes → Bytes32
  /-- `Encrypt` of an AES cipher, which takes the first block of its input. -/
  aesEncrypt : (key block : Bytes) → Bytes16
  /-- The key stream of AES in CTR mode. -/
  aesCTR : (key iv : Bytes) → Nat → UInt8
  snappyEncode : Bytes → Bytes
  snappyDecodedLen : Bytes → Outcome Err Nat
  snappyDecode : Bytes → Outcome Err Bytes

/-- A message with its payload read out. `Size` is what the sender says it is. -/
structure Msg where
  code : Nat
  size : Nat
  payload : Bytes
  deriving DecidableEq, Repr

inductive FrameErr where
  /-- `io.EOF` or `io.ErrUnexpectedEOF` of `io.ReadFull`. -/
  | shortRead
  | badHeaderMAC
  | badFrameMAC
  | plainMessageTooLarge
  | sizeOverflowsUint24
  | code (err : RlpErr)
  | snappy (err : Err)
  deriving DecidableEq, Repr

def maxUint24 : Nat := 2 ^ 24 - 1

/-- The places in the key streams, the secrets behind them, and what has been written to the
hashes. -/
structure RlpxFrameRW where
  aes : Bytes
  enc : Nat
  dec : Nat
  macCipher : Bytes
  egressMAC : Bytes
  ingressMAC : Bytes
  snappy : Bool
  deriving DecidableEq, Repr

/-- `secrets`. -/
structure Secrets where
  remoteID : NodeID
  aes : Bytes
  mac : Bytes
  egressMAC : Bytes
  ingressMAC : Bytes
  deriving DecidableEq, Repr

def newRLPXFrameRW {ε : Type} (s : Secrets) : Outcome ε RlpxFrameRW :=
  if ¬IsAesKey s.mac then .panic
  else if ¬IsAesKey s.aes then .panic
  else .ok ⟨s.aes, 0, 0, s.mac, s.egressMAC, s.ingressMAC, false⟩

def putInt24 (v : Nat) : Bytes := [UInt8.ofNat (v >>> 16), UInt8.ofNat (v >>> 8), UInt8.ofNat v]

def readInt24 : Bytes → Nat
  | high :: middle :: low :: _ => low.toNat ||| middle.toNat <<< 8 ||| high.toNat <<< 16
  | _ => 0

def zeroHeader : Bytes := [0xC2, 0x80, 0x80]

/-- `rlp.EncodeToBytes` of a message code. -/
def encodeCode (code : Nat) : Outcome RlpErr Bytes := do
  let w ← writeUint code .empty
  w.toBytes

section Framing

variable (env : WireEnv)

/-- The first 16 bytes of the sum after seeding, and the hash. The seed is 16 or 32 bytes long at
every call. -/
def updateMAC (mac block seed : Bytes) : Bytes × Bytes :=
  let aesbuf := (env.aesEncrypt block (env.keccak256 mac).val).val
  let mac := mac ++ xorBytes aesbuf seed
  ((env.keccak256 mac).val.take 16, mac)

/-- The key stream of a connection, with an IV of zeros. -/
def keyStream (aes : Bytes) : Nat → UInt8 := env.aesCTR aes (List.replicate 16 0)

/-- The bytes up to the next multiple of 16. -/
def padding (fsize : Nat) : Nat := if fsize % 16 > 0 then 16 - fsize % 16 else 0

/-- What is written to the connection, which takes it all. -/
def RlpxFrameRW.writeMsg (rw : RlpxFrameRW) (msg : Msg) :
    Outcome FrameErr (Bytes × RlpxFrameRW) := do
  let ptype ← match encodeCode msg.code with
    | .ok ptype => pure ptype
    -- the error is dropped
    | .err _ => pure []
    | .panic => .panic
  let msg ← if rw.snappy then
      if msg.size > maxUint24 then .err .plainMessageTooLarge
      else
        let payload := env.snappyEncode msg.payload
        pure { msg with payload, size := payload.length % 2 ^ 32 }
    else pure msg
  let fsize := (ptype.length + msg.size) % 2 ^ 32
  if fsize > maxUint24 then .err .sizeOverflowsUint24
  else
    let headbuf := putInt24 fsize ++ zeroHeader ++ List.replicate 10 0
    let headbuf := xorKeyStream (keyStream env rw.aes) rw.enc headbuf
    let (headMAC, egressMAC) := updateMAC env rw.egressMAC rw.macCipher headbuf
    let content := ptype ++ msg.payload ++ List.replicate (padding fsize) 0
    let content := xorKeyStream (keyStream env rw.aes) (rw.enc + 16) content
    let egressMAC := egressMAC ++ content
    let fmacseed := (env.keccak256 egressMAC).val
    let (mac, egressMAC) := updateMAC env egressMAC rw.macCipher fmacseed
    pure (headbuf ++ headMAC ++ content ++ mac,
      { rw with enc := rw.enc + 16 + content.length, egressMAC })

/-- `io.ReadFull` of a slice. -/
def readFull (size : Nat) (input : Bytes) : Outcome FrameErr (Bytes × Bytes) :=
  if input.length < size then .err .shortRead else pure (input.take size, input.drop size)

/-- `rlp.Decode` of a message code from a `bytes.Reader`, with what is left in the reader. -/
def decodeCode (content : Bytes) : Outcome FrameErr (Nat × Bytes) :=
  match decodeUint (Stream.ofBytes content) with
  | (.ok code, s) => pure (code, s.r.unread)
  | (.err err, _) => .err (.code err)
  | (.panic, _) => .panic

def liftSnappy {α : Type} : Outcome Err α → Outcome FrameErr α
  | .ok value => pure value
  | .err err => .err (.snappy err)
  | .panic => .panic

/-- The message of a decrypted frame, decompressed if need be. -/
def openContent (snappy : Bool) (content : Bytes) : Outcome FrameErr Msg := do
  let (code, payload) ← decodeCode content
  if snappy then do
    let size ← liftSnappy (env.snappyDecodedLen payload)
    if size > maxUint24 then .err .plainMessageTooLarge
    else do
      let plain ← liftSnappy (env.snappyDecode payload)
      pure ⟨code, size % 2 ^ 32, plain⟩
  else pure ⟨code, payload.length % 2 ^ 32, payload⟩

/-- A message from what has come over the connection, and what comes after it. After an error
nothing more is read. -/
def RlpxFrameRW.readMsg (rw : RlpxFrameRW) (input : Bytes) :
    Outcome FrameErr (Msg × RlpxFrameRW × Bytes) := do
  let (headbuf, input) ← readFull 32 input
  let (shouldMAC, ingressMAC) := updateMAC env rw.ingressMAC rw.macCipher (headbuf.take 16)
  if shouldMAC ≠ headbuf.drop 16 then .err .badHeaderMAC
  else do
    let head := xorKeyStream (keyStream env rw.aes) rw.dec (headbuf.take 16)
    let fsize := readInt24 head
    let rsize := fsize + padding fsize
    let (framebuf, input) ← readFull rsize input
    let ingressMAC := ingressMAC ++ framebuf
    let fmacseed := (env.keccak256 ingressMAC).val
    let (tag, input) ← readFull 16 input
    let (shouldMAC, ingressMAC) := updateMAC env ingressMAC rw.macCipher fmacseed
    if shouldMAC ≠ tag then .err .badFrameMAC
    else do
      let framebuf := xorKeyStream (keyStream env rw.aes) (rw.dec + 16) framebuf
      let msg ← openContent env rw.snappy (framebuf.take fsize)
      pure (msg, { rw with dec := rw.dec + 16 + rsize, ingressMAC }, input)

end Framing

/-! ### Codes and sizes -/

theorem encodeCode_eq {code : Nat} (range : code < 2 ^ 64) :
    encodeCode code = .ok (Lib.Rlp.integer code) := by
  rw [encodeCode, writeUint_eq range, Outcome.ok_bind, toBytes_add]
  simp [spell, Piece.bytes]

theorem decodeCode_eq {code : Nat} (range : code < 2 ^ 64) (payload : Bytes) :
    decodeCode (Lib.Rlp.integer code ++ payload) = .ok (code, payload) := by
  have place : At BytesReader.source (Stream.ofBytes (Lib.Rlp.integer code ++ payload))
      (Lib.Rlp.integer code ++ payload) 0 [] := ⟨rfl, fun _ => rfl, rfl⟩
  obtain ⟨s, read, -, after⟩ := Stream.uint_at rfl place trivial range
  have unread : s.r.unread = payload := after.holds
  rw [decodeCode, decodeUint, StreamM.mapErr_ok _ read]
  simp [unread]

theorem length_integer_le {code : Nat} (range : code < 2 ^ 64) :
    (Lib.Rlp.integer code).length ≤ 9 := by
  have width : byteLen code ≤ 8 := byteLen_le range
  unfold Lib.Rlp.integer Lib.Rlp.string Lib.Rlp.header
  split
  · rw [length_natBytes]
    omega
  · rw [if_pos (by rw [length_natBytes]; omega), List.length_append, length_natBytes]
    simp only [List.length_singleton]
    omega

theorem readInt24_putInt24 {v : Nat} (range : v ≤ maxUint24) (rest : Bytes) :
    readInt24 (putInt24 v ++ rest) = v := by
  have bound : v < 2 ^ 24 := by
    unfold maxUint24 at range
    omega
  simp only [putInt24, List.cons_append, List.nil_append, readInt24, UInt8.toNat_ofNat',
    Nat.shiftRight_eq_div_pow, Nat.shiftLeft_eq]
  -- the three bytes do not overlap
  have low : v % 2 ^ 8 ||| v / 2 ^ 8 % 2 ^ 8 * 2 ^ 8 = v % 2 ^ 16 := by
    rw [Nat.or_comm, ← Nat.shiftLeft_eq, ← Nat.shiftLeft_add_eq_or_of_lt (by omega)]
    rw [Nat.shiftLeft_eq]
    omega
  rw [low, Nat.or_comm, ← Nat.shiftLeft_eq, ← Nat.shiftLeft_add_eq_or_of_lt (by omega),
    Nat.shiftLeft_eq]
  omega

end SchnorrMpc.P2p
