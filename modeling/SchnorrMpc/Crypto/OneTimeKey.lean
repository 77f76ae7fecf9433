import SchnorrMpc.Keystore.Key
import SchnorrMpc.Lib.Assoc
import SchnorrMpc.Schnorr.KeyText

/-!
# One-time addresses

The sender of a payment makes a key that only the recipient can open, from the
two public keys of the recipient and a scalar of its own. The recipient finds it
with its second private key and opens it with both. Points and scalars travel as
hexadecimal text.
-/
namespace SchnorrMpc

open Lib S256

/-- `ecdsa.GenerateKey`: the scalar that was drawn, with its multiple of the base point. -/
def generateKey (env : Env) : Except Err Int → Go PrivateKey
  | .error error => .err error
  | .ok d => do
    let publicKey ← env.curve.scalarBaseMult (intBytes d)
    pure ⟨d, publicKey⟩

/-- `[hash([r]B)]G + A`. -/
def generateA1 (env : Env) (r : Bytes) (A B : Point) : Go Point := do
  let shared ← env.curve.scalarMult B r
  let encoded ← fromECDSAPub shared
  let hashed ← env.curve.scalarBaseMult (env.keccak256 encoded).val
  env.curve.add hashed A

/-- A nil coordinate is dereferenced. -/
def compareA1 (env : Env) (b : Bytes) (A S1 A1 : Point) : Go Bool := do
  let A1n ← generateA1 env b A S1
  match A1, A1n with
  | some (x, y), some (xn, yn) => .ok (x == xn && y == yn)
  | _, _ => .panic

/-- The one-time key and the public key of the scalar that was drawn. -/
def generateOneTimeKey2528 (env : Env) (drawn : Except Err Int) (A B : Point) :
    Go (Point × Point) := do
  let rPrivateKey ← generateKey env drawn
  let A1 ← generateA1 env (intBytes rPrivateKey.d) A B
  pure (A1, rPrivateKey.publicKey)

/-- The scalar of the one-time key; the second one is always zero. The one-time key itself is not
looked at. -/
def generateOneTimePrivateKey2528 (env : Env) (privateKey privateKey2 : Int) (_destPubA : Point)
    (destPubB : Point) : Go (Int × Int) := do
  let pub ← env.curve.scalarMult destPubB (intBytes privateKey2)
  let encoded ← fromECDSAPub pub
  pure (((beNat (env.keccak256 encoded).val : Int) + privateKey) % N, 0)

/-! ### As text -/

/-- `PaddedBigBytes` and `LeftPadBytes`, for 32 bytes. -/
def paddedBytes (x : Int) : Bytes := List.replicate (32 - (intBytes x).length) 0 ++ intBytes x

/-- Two coordinates from their texts, which need not be those of a point. -/
def decodePoint (x y : Bytes) : Go (Int × Int) := do
  let bytesX ← Hexutil.decode x
  let bytesY ← Hexutil.decode y
  pure (beNat bytesX, beNat bytesY)

/-- `PKPair2HexSlice`, which dereferences nil coordinates. -/
def pkPair2HexSlice : Point → Point → Go (List Bytes)
  | some (x1, y1), some (x2, y2) =>
    .ok ([x1, y1, x2, y2].map fun coordinate => Hexutil.encode (paddedBytes coordinate))
  | _, _ => .panic

/-- An error of the drawing is dropped, and the nil keys that come with it are printed. -/
def generateOneTimeKey (env : Env) (drawn : Except Err Int) (AX AY BX BY : Bytes) :
    Go (List Bytes) := do
  let pa ← decodePoint AX AY
  let pb ← decodePoint BX BY
  match generateOneTimeKey2528 env drawn (some pa) (some pb) with
  | .ok (generatedA1, generatedR) => pkPair2HexSlice generatedA1 generatedR
  | _ => .panic

def generteOTAPrivateKey (env : Env) (privateKey privateKey2 : Int) (AX AY BX BY : Bytes) :
    Go ((Int × Int) × Int × Int) := do
  let retPub ← decodePoint AX AY
  let pb ← decodePoint BX BY
  let priv ← generateOneTimePrivateKey2528 env privateKey privateKey2 (some retPub) (some pb)
  pure (retPub, priv)

def errLocked : Err := .new (utf8 "authentication needed: password or unlock")

/-- The results are printed before the error is looked at, so a text that cannot be decoded is
dereferenced. -/
def computeOTAPPKeys (env : Env) (unlocked : Assoc Address Key) (address : Address)
    (AX AY BX BY : Bytes) : Go (List Bytes) :=
  match unlocked.lookup address with
  | none => .err errLocked
  | some key =>
    match generteOTAPrivateKey env key.privateKey.d key.privateKey2.d AX AY BX BY with
    | .ok ((x, y), priv1, priv2) =>
      .ok ([x, y, priv1, priv2].map fun number => Hexutil.encode (paddedBytes number))
    | _ => .panic

end SchnorrMpc
