import SchnorrMpc.Rlp.Encode

/-!
# The decoder

`rlp/decode.go` for the types of an MPC message: the stream over a reader, which knows the open
lists and the kind of the value ahead, and the decoders of the fields. Sizes are uint64; the checks
keep every position within its list, so that no sum of them wraps around.
-/
namespace SchnorrMpc.Rlp

open Lib

inductive Kind where
  | byte
  | string
  | list
  deriving DecidableEq, Repr

structure ListPos where
  pos : Nat
  size : Nat
  deriving DecidableEq, Repr

/-- `kind` is none where the source has -1, and the innermost list is the first of `stack`. -/
structure Stream (σ : Type) where
  r : σ
  remaining : Nat
  limited : Bool
  kind : Option Kind
  size : Nat
  byteval : UInt8
  kinderr : Option RlpErr
  stack : List ListPos

/-- A call on a stream, which it changes whether it returns or fails. -/
def StreamM (σ α : Type) : Type := Stream σ → Outcome RlpErr α × Stream σ

namespace StreamM

variable {σ α β : Type}

protected def bind (call : StreamM σ α) (next : α → StreamM σ β) : StreamM σ β := fun s =>
  match call s with
  | (.ok value, s) => next value s
  | (.err err, s) => (.err err, s)
  | (.panic, s) => (.panic, s)

instance : Monad (StreamM σ) where
  pure value := fun s => (.ok value, s)
  bind := StreamM.bind

def fail (err : RlpErr) : StreamM σ α := fun s => (.err err, s)

def panic : StreamM σ α := fun s => (.panic, s)

def get : StreamM σ (Stream σ) := fun s => (.ok s, s)

def modify (change : Stream σ → Stream σ) : StreamM σ Unit := fun s => (.ok (), change s)

/-- The error of a call as a value. -/
def attempt (call : StreamM σ α) : StreamM σ (Except RlpErr α) := fun s =>
  match call s with
  | (.ok value, s) => (.ok (.ok value), s)
  | (.err err, s) => (.ok (.error err), s)
  | (.panic, s) => (.panic, s)

/-- A call whose error is changed. -/
def mapErr (change : RlpErr → RlpErr) (call : StreamM σ α) : StreamM σ α := fun s =>
  match call s with
  | (.err err, s) => (.err (change err), s)
  | result => result

end StreamM

namespace Stream

open StreamM

section Reading

variable {σ : Type} [ByteReader σ]

/-! ### Reading -/

/-- The check of `willRead` against the input limit. -/
def checkLimit (n : Nat) : StreamM σ Unit := fun s =>
  if s.limited then
    if n > s.remaining then (.err .valueTooLarge, s)
    else (.ok (), { s with remaining := s.remaining - n })
  else (.ok (), s)

def willRead (n : Nat) : StreamM σ Unit := fun s =>
  match s.stack with
  | [] => checkLimit n { s with kind := none }
  | tos :: outer =>
    if n > tos.size - tos.pos then (.err .elemTooLarge, { s with kind := none })
    else checkLimit n { s with kind := none, stack := ⟨tos.pos + n, tos.size⟩ :: outer }

/-- The end of the input inside of a value is unexpected. -/
def unexpected : IoErr → RlpErr
  | .eof => .io .unexpectedEOF
  | err => .io err

/-- `ReadByte` of the reader. -/
def nextByte : StreamM σ UInt8 := fun s =>
  match ByteReader.readByte s.r with
  | (.ok byte, r) => (.ok byte, { s with r := r })
  | (.error err, r) => (.err (unexpected err), { s with r := r })

def readByte : StreamM σ UInt8 := do
  willRead 1
  nextByte

/-- The loop of `readFull`. An error of the reader counts even if it came with the last bytes of
the slice. -/
def fillSlice (size : Nat) : StreamM σ Bytes := fun s =>
  match readLoop size size s.r with
  | (bytes, none, r) => (.ok bytes, { s with r := r })
  | (_, some err, r) => (.err (unexpected err), { s with r := r })

def readFull (size : Nat) : StreamM σ Bytes := do
  willRead size
  fillSlice size

def readUint (size : Nat) : StreamM σ Nat :=
  if size = 0 then do
    modify fun s => { s with kind := none }
    pure 0
  else if size = 1 then do
    let byte ← readByte
    pure byte.toNat
  else do
    let bytes ← readFull size
    if bytes.head? = some 0 then fail .canonSize else pure (beNat bytes)

/-- The size of a long value, with the error it is returned with. -/
def readSize (sizesize : Nat) : StreamM σ (Nat × Option RlpErr) := do
  match ← attempt (readUint sizesize) with
  | .error err => pure (0, some err)
  | .ok size => pure (size, if size < 56 then some .canonSize else none)

/-- At the top level the end of the input is reported as such. -/
def adjust (stack : List ListPos) (err : RlpErr) : RlpErr :=
  if stack = [] ∧ (err = .io .unexpectedEOF ∨ err = .valueTooLarge) then .io .eof else err

/-- The cases of `readKind` by the first byte. -/
def tagKind (tag : Nat) : StreamM σ (Kind × Nat × Option RlpErr) :=
  if tag < 0x80 then pure (.byte, 0, none)
  else if tag < 0xB8 then pure (.string, tag - 0x80, none)
  else if tag < 0xC0 then do
    let (size, err) ← readSize (tag - 0xB7)
    pure (.string, size, err)
  else if tag < 0xF8 then pure (.list, tag - 0xC0, none)
  else do
    let (size, err) ← readSize (tag - 0xF7)
    pure (.list, size, err)

def readKind : StreamM σ (Kind × Nat × Option RlpErr) := do
  let s ← get
  match ← attempt readByte with
  | .error err => pure (.byte, 0, some (adjust s.stack err))
  | .ok b => do
    modify fun s => { s with byteval := if b.toNat < 0x80 then b else 0 }
    tagKind b.toNat

/-- The check of a value's size against what is left of the innermost list or of the input. -/
def checkSize (s : Stream σ) (size : Nat) : Option RlpErr :=
  match s.stack with
  | [] => if s.limited ∧ size > s.remaining then some .valueTooLarge else none
  | tos :: _ => if size > tos.size - tos.pos then some .elemTooLarge else none

/-- `Kind`: the kind and the size of the value ahead, or the error of reading them, kept until the
value is read. -/
def kindAhead : StreamM σ (Kind × Nat) := fun s =>
  match s.kind with
  | some kind =>
    match s.kinderr with
    | some err => (.err err, s)
    | none => (.ok (kind, s.size), s)
  | none =>
    if s.stack.head?.any fun tos => tos.pos = tos.size then (.err .eol, { s with kinderr := none })
    else
      match readKind { s with kinderr := none } with
      | (.ok (kind, size, err), s) =>
        let s := { s with kind := some kind, size := size, kinderr := err.or (s.checkSize size) }
        match s.kinderr with
        | some err => (.err err, s)
        | none => (.ok (kind, size), s)
      | (.err err, s) => (.err err, s)
      | (.panic, s) => (.panic, s)

/-! ### Values -/

/-- `make` panics on a size that is no int. -/
def bytes : StreamM σ Bytes := do
  let (kind, size) ← kindAhead
  match kind with
  | .byte => do
    modify fun s => { s with kind := none }
    let s ← get
    pure [s.byteval]
  | .string =>
    if 2 ^ 63 ≤ size then panic
    else do
      let b ← readFull size
      if size = 1 ∧ b.head?.any (· < 128) then fail .canonSize else pure b
  | .list => fail .expectedString

def uint (maxbits : Nat) : StreamM σ Nat := do
  let (kind, size) ← kindAhead
  match kind with
  | .byte => do
    let s ← get
    if s.byteval = 0 then fail .canonInt
    else do
      modify fun s => { s with kind := none }
      pure s.byteval.toNat
  | .string =>
    if size > maxbits / 8 then fail .uintOverflow
    else do
      match ← attempt (readUint size) with
      | .error err => fail (if err = .canonSize then .canonInt else err)
      | .ok v => if 0 < size ∧ v < 128 then fail .canonSize else pure v
  | .list => fail .expectedString

def list : StreamM σ Nat := do
  let (kind, size) ← kindAhead
  if kind ≠ .list then fail .expectedList
  else do
    modify fun s => { s with stack := ⟨0, size⟩ :: s.stack, kind := none, size := 0 }
    pure size

end Reading

def listEnd {σ : Type} : StreamM σ Unit := fun s =>
  match s.stack with
  | [] => (.err .notInList, s)
  | tos :: outer =>
    if tos.pos ≠ tos.size then (.err .notAtEOL, s)
    else
      let outer := match outer with
        | [] => []
        | next :: outer => ⟨next.pos + tos.size, next.size⟩ :: outer
      (.ok (), { s with stack := outer, kind := none, size := 0 })

end Stream

/-! ### Decoders -/

def wrapStreamError (typ : String) : RlpErr → RlpErr
  | .canonInt => .decode "non-canonical integer (leading zero bytes)" typ []
  | .canonSize => .decode "non-canonical size information" typ []
  | .expectedList => .decode "expected input list" typ []
  | .expectedString => .decode "expected input string or byte" typ []
  | .uintOverflow => .decode "input string too long" typ []
  | .notAtEOL => .decode "input list has too many elements" typ []
  | err => err

def addErrorContext (ctx : String) : RlpErr → RlpErr
  | .decode msg typ context => .decode msg typ (context ++ [ctx])
  | err => err

section Decoders

open StreamM

variable {σ : Type} [ByteReader σ] {α : Type}

def decodeUint : StreamM σ Nat := mapErr (wrapStreamError "uint64") (Stream.uint 64)

def decodeByteSlice : StreamM σ Bytes := mapErr (wrapStreamError "[]uint8") Stream.bytes

/-- Leading zero bytes are rejected. -/
def decodeBigInt : StreamM σ Int := do
  let b ← mapErr (wrapStreamError "*big.Int") Stream.bytes
  if b.head? = some 0 then fail (wrapStreamError "*big.Int" .canonInt) else pure (beNat b : Int)

/-- The loop goes on until the end of the list. Every element takes a byte of it, so there are no
more rounds than bytes and one. -/
def decodeSliceElems (elemdec : StreamM σ α) : Nat → Nat → StreamM σ (List α)
  | 0, _ => fail (.io .noProgress)
  | rounds + 1, i => do
    match ← attempt elemdec with
    | .error err =>
      if err = .eol then pure [] else fail (addErrorContext ("[" ++ toString i ++ "]") err)
    | .ok item => do
      let items ← decodeSliceElems elemdec rounds (i + 1)
      pure (item :: items)

def decodeListSlice (typ : String) (elemdec : StreamM σ α) : StreamM σ (List α) := do
  let size ← mapErr (wrapStreamError typ) Stream.list
  if size = 0 then do
    Stream.listEnd
    pure []
  else do
    let items ← decodeSliceElems elemdec (size + 1) 0
    Stream.listEnd
    pure items

/-- A field of a struct, in the loop of `makeStructDecoder`. -/
def decodeField (typ name : String) (decoder : StreamM σ α) : StreamM σ α :=
  mapErr (fun err =>
    if err = .eol then .decode "too few elements" typ [] else addErrorContext ("." ++ name) err)
      decoder

/-- The decoder of `makeStructDecoder` for the fields of `MpcMessage`. -/
def decodeMpcMessage : StreamM σ MpcMessage := do
  let typ := "protocol.MpcMessage"
  let _ ← mapErr (wrapStreamError typ) Stream.list
  let contextID ← decodeField typ "ContextID" decodeUint
  let stepID ← decodeField typ "StepID" decodeUint
  let peers ← decodeField typ "Peers" decodeByteSlice
  let data ← decodeField typ "Data" (decodeListSlice "[]big.Int" decodeBigInt)
  let bytesData ← decodeField typ "BytesData" (decodeListSlice "[][]uint8" decodeByteSlice)
  mapErr (wrapStreamError typ) Stream.listEnd
  pure ⟨contextID, stepID, peers, data, bytesData⟩

/-- The target type is added to errors that have a context. -/
def addTarget : RlpErr → RlpErr
  | .decode msg typ (ctx :: context) =>
    .decode msg typ (ctx :: context ++ ["(protocol.MpcMessage)"])
  | err => err

/-- `Stream.Decode` into a new message. -/
def Stream.decode : StreamM σ MpcMessage := mapErr addTarget decodeMpcMessage

end Decoders

namespace Stream

/-- `NewStream` on a reader without single bytes and without a limit, which is buffered. -/
def ofReader {σ : Type} [Reader σ] (r : σ) : Stream (Buffered σ) :=
  ⟨Buffered.new r, 0, false, none, 0, 0, none, []⟩

/-- `NewStream` on a `bytes.Reader`, which is limited to its length. -/
def ofBytes (b : Bytes) : Stream BytesReader := ⟨⟨b⟩, b.length, true, none, 0, 0, none, []⟩

end Stream

/-- `Decode` of a reader that is no `ByteReader`. -/
def decode {σ : Type} [Reader σ] (r : σ) : Outcome RlpErr MpcMessage :=
  (Stream.decode (Stream.ofReader r)).1

def decodeBytes (b : Bytes) : Outcome RlpErr MpcMessage :=
  match Stream.decode (Stream.ofBytes b) with
  | (.ok msg, s) => if s.r.unread ≠ [] then .err .moreThanOneValue else .ok msg
  | (.err err, _) => .err err
  | (.panic, _) => .panic

end SchnorrMpc.Rlp
