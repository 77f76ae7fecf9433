import SchnorrMpc.Lib.Reader
import SchnorrMpc.Lib.Rlp
import SchnorrMpc.Protocol.Types

/-!
# The encoder

`rlp/encode.go` for the types of an MPC message. List headers depend on the sizes of what follows,
so an `encbuf` keeps them apart from the other data and two writers merge them: `toBytes` and the
reader of `EncodeToReader`. Lengths are Go ints, below `2 ^ 63`.
-/
namespace SchnorrMpc.Rlp

open Lib

/-- The errors of the package, those of readers among them. `decode` is a `decodeError`. -/
inductive RlpErr where
  | io (err : IoErr)
  | eol
  | expectedString
  | expectedList
  | canonInt
  | canonSize
  | elemTooLarge
  | valueTooLarge
  | moreThanOneValue
  | notInList
  | notAtEOL
  | uintOverflow
  | negativeBigInt
  | decode (msg typ : String) (ctx : List String)
  deriving DecidableEq, Repr

/-! ### Integers and headers -/

/-- `intsize` of a `uint64`, whose loop ends after eight rounds. -/
def intsize (i : Nat) : Nat :=
  go 8 i
where
  go : Nat → Nat → Nat
    | 0, _ => 0
    | rounds + 1, i => if i / 256 = 0 then 1 else go rounds (i / 256) + 1

/-- The bytes that `putint` writes. -/
def putint (i : Nat) : Bytes :=
  if i < 1 <<< 8 then bePad 1 i
  else if i < 1 <<< 16 then bePad 2 i
  else if i < 1 <<< 24 then bePad 3 i
  else if i < 1 <<< 32 then bePad 4 i
  else if i < 1 <<< 40 then bePad 5 i
  else if i < 1 <<< 48 then bePad 6 i
  else if i < 1 <<< 56 then bePad 7 i
  else bePad 8 i

/-- The bytes that `puthead` writes. -/
def puthead (smalltag largetag size : Nat) : Bytes :=
  if size < 56 then [UInt8.ofNat (smalltag + size)]
  else UInt8.ofNat (largetag + (putint size).length) :: putint size

/-! ### The buffer -/

structure ListHead where
  offset : Nat
  size : Nat
  deriving DecidableEq, Repr

def ListHead.encode (head : ListHead) : Bytes := puthead 0xC0 0xF7 head.size

structure EncBuf where
  str : Bytes
  lheads : List ListHead
  lhsize : Nat
  deriving DecidableEq, Repr

namespace EncBuf

/-- A buffer after `reset`. -/
def empty : EncBuf := ⟨[], [], 0⟩

def write (w : EncBuf) (bytes : Bytes) : EncBuf := { w with str := w.str ++ bytes }

def size (w : EncBuf) : Nat := w.str.length + w.lhsize

def encodeStringHeader (w : EncBuf) (size : Nat) : EncBuf :=
  w.write (puthead 0x80 0xB7 size)

def encodeString (w : EncBuf) (bytes : Bytes) : EncBuf :=
  match bytes with
  | [byte] =>
    if byte ≤ 0x7F then w.write [byte] else (w.encodeStringHeader 1).write [byte]
  | bytes => (w.encodeStringHeader bytes.length).write bytes

/-- The new header, by its index, keeps the size of all headers until the list ends. -/
def list (w : EncBuf) : Nat × EncBuf :=
  (w.lheads.length, { w with lheads := w.lheads ++ [⟨w.str.length, w.lhsize⟩] })

def listEnd (w : EncBuf) (lh : Nat) : EncBuf :=
  match w.lheads[lh]? with
  | none => w
  | some head =>
    let size := w.size - head.offset - head.size
    { w with
      lheads := w.lheads.set lh ⟨head.offset, size⟩
      lhsize := w.lhsize + if size < 56 then 1 else 1 + intsize size }

/-- `out` has room for `w.size` bytes: string data that does not fit is cut off, and a header that
does not fit ends in a panic. -/
def toBytes (w : EncBuf) : Outcome RlpErr Bytes := do
  let (out, strpos) ← w.lheads.foldlM (fun (out, strpos) head =>
    let data := ((w.str.take head.offset).drop strpos).take (w.size - out.length)
    if w.size < (out ++ data ++ head.encode).length then .panic
    else .ok (out ++ data ++ head.encode, strpos + data.length)) ([], 0)
  let out := out ++ (w.str.drop strpos).take (w.size - out.length)
  .ok (out ++ List.replicate (w.size - out.length) 0)

end EncBuf

/-! ### Writers -/

def writeUint (i : Nat) (w : EncBuf) : Outcome RlpErr EncBuf :=
  if i = 0 then .ok (w.write [0x80])
  else if i < 128 then .ok (w.write [UInt8.ofNat i])
  else .ok (w.write (UInt8.ofNat (0x80 + (putint i).length) :: putint i))

def writeBigInt (i : Int) (w : EncBuf) : Outcome RlpErr EncBuf :=
  if i < 0 then .err .negativeBigInt
  else if i = 0 then .ok (w.write [0x80])
  else .ok (w.encodeString (natBytes i.toNat))

def writeBytes (bytes : Bytes) (w : EncBuf) : Outcome RlpErr EncBuf :=
  .ok (w.encodeString bytes)

/-- The writer of `makeSliceWriter`. -/
def writeSlice {α : Type} (writer : α → EncBuf → Outcome RlpErr EncBuf) (items : List α)
    (w : EncBuf) : Outcome RlpErr EncBuf := do
  let (lh, w) := w.list
  let w ← items.foldlM (fun w item => writer item w) w
  .ok (w.listEnd lh)

/-- The writer of `makeStructWriter` for the fields of `MpcMessage`. -/
def writeMpcMessage (msg : MpcMessage) (w : EncBuf) : Outcome RlpErr EncBuf := do
  let (lh, w) := w.list
  let w ← writeUint msg.contextID w
  let w ← writeUint msg.stepID w
  let w ← writeBytes msg.peers w
  let w ← writeSlice writeBigInt msg.data w
  let w ← writeSlice writeBytes msg.bytesData w
  .ok (w.listEnd lh)

def encodeToBytes (msg : MpcMessage) : Outcome RlpErr Bytes := do
  let w ← writeMpcMessage msg .empty
  w.toBytes

/-! ### The reader -/

/-- `buf` is nil once the end has been reported, and `piece` is nil before a new one is taken. -/
structure EncReader where
  buf : Option EncBuf
  lhpos : Nat
  strpos : Nat
  piece : Option Bytes
  deriving DecidableEq, Repr

def encodeToReader (msg : MpcMessage) : Outcome RlpErr (Nat × EncReader) := do
  let w ← writeMpcMessage msg .empty
  .ok (w.size, ⟨some w, 0, 0, none⟩)

namespace EncReader

def next (r : EncReader) : Option Bytes × EncReader :=
  match r.buf, r.piece with
  | none, _ => (none, r)
  | some _, some piece => (some piece, r)
  | some buf, none =>
    match buf.lheads[r.lhpos]? with
    | some head =>
      -- string data before the header comes first
      if r.strpos < head.offset then
        (some ((buf.str.take head.offset).drop r.strpos), { r with strpos := head.offset })
      else (some head.encode, { r with lhpos := r.lhpos + 1 })
    | none =>
      if r.strpos < buf.str.length then
        (some (buf.str.drop r.strpos), { r with strpos := buf.str.length })
      else (none, r)

/-- A bound for the pieces that are left. -/
def pieces (r : EncReader) : Nat :=
  match r.buf with
  | none => 0
  | some buf =>
    let stop := (buf.lheads[r.lhpos]?.map ListHead.offset).getD buf.str.length
    (if r.piece.isSome then 1 else 0) + 2 * (buf.lheads.length - r.lhpos) +
      if r.strpos < stop then 1 else 0

/-- The loop of `Read` into the rest of the slice. -/
def readPieces : Nat → Nat → EncReader → Bytes × Option IoErr × EncReader
  | 0, _, r => ([], some .noProgress, r)
  | rounds + 1, room, r =>
    match r.next with
    | (none, r) => ([], some .eof, { r with buf := none, piece := none })
    | (some piece, r) =>
      if room < piece.length then
        (piece.take room, none, { r with piece := some (piece.drop room) })
      else
        let (more, err, r) := readPieces rounds (room - piece.length) { r with piece := none }
        (piece ++ more, err, r)

instance : Reader EncReader where
  read limit r := r.readPieces (r.pieces + 1) limit

end EncReader
end SchnorrMpc.Rlp
