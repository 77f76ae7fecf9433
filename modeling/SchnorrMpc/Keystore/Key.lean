import SchnorrMpc.Crypto.PublicKey
import SchnorrMpc.Lib.Hex

/-!
# Keys and key files

A node keeps its share of a group key in an encrypted file, together with the
seeds of the group and the encoded group key. Key derivation, the cipher and
JSON are functions of other packages.
-/
namespace SchnorrMpc

open Lib

structure PrivateKey where
  d : Int
  publicKey : Point
  deriving DecidableEq, Repr

/-- The length of the field that holds the seeds. -/
def wAddressLength : Nat := 66

structure Key where
  id : Bytes
  address : Address
  privateKey : PrivateKey
  privateKey2 : PrivateKey
  wAddress : Bytes
  exten : Bytes
  deriving DecidableEq, Repr

/-- The parameters of key derivation are read from a map of any values, so each may be missing. -/
structure CryptoJSON where
  cipher : Bytes
  cipherText : Bytes
  iv : Bytes
  kdf : Bytes
  n : Option Int
  r : Option Int
  p : Option Int
  dklen : Option Int
  salt : Option Bytes
  mac : Bytes
  deriving DecidableEq, Repr

structure EncryptedKeyJSONV3 where
  address : Bytes
  crypto : CryptoJSON
  crypto2 : CryptoJSON
  id : Bytes
  version : Int
  waddress : Bytes
  exten : Bytes
  deriving DecidableEq, Repr

/-- The functions of other packages that key files are written and read with. -/
structure KeyEnv extends Env where
  /-- The derived key up to the capacity of its slice, which is a multiple of 32 bytes. -/
  scrypt : (password salt : Bytes) → (n r p keyLen : Int) → Go Bytes
  /-- The other key derivation, which is never written; the key likewise. -/
  pbkdf2 : Bytes → CryptoJSON → Go Bytes
  aesCTRXOR : (key inText iv : Bytes) → Go Bytes
  marshalKey : EncryptedKeyJSONV3 → Go Bytes
  unmarshalKey : Bytes → Go EncryptedKeyJSONV3
  /-- The version field, when it is a string. -/
  keyVersion : Bytes → Go (Option Bytes)
  /-- The address field alone, as a scan of the key directory reads it. -/
  unmarshalAddress : Bytes → Option Bytes
  /-- Files of the first version, which are never written. -/
  decryptKeyV1 : Bytes → Bytes → Go Key
  /-- The plain text of a file that AWS KMS has encrypted. -/
  decryptFileToBuffer : Bytes → Go Bytes

/-- A byte as `%#U` prints it: its number, and the character if it can be printed. -/
def runeText (char : UInt8) : Bytes :=
  let c := char.toNat
  let digit (n : Nat) : UInt8 := if n < 10 then .ofNat (48 + n) else .ofNat (55 + n)
  let shown := if c < 128 then [char] else [.ofNat (192 + c / 64), .ofNat (128 + c % 64)]
  utf8 "U+00" ++ [digit (c / 16), digit (c % 16)] ++
    if 32 ≤ c ∧ c < 127 ∨ 160 < c ∧ c ≠ 173 then utf8 " '" ++ shown ++ utf8 "'" else []

def HexError.err : HexError → Err
  | .oddLength => .new (utf8 "encoding/hex: odd length hex string")
  | .invalidByte char => .new (utf8 "encoding/hex: invalid byte: " ++ runeText char)

def decodeString (text : Bytes) : Go Bytes :=
  match hexDecode text with
  | .ok bytes => .ok bytes
  | .error error => .err (HexError.err error)

/-- `Address.Hex` without its prefix: letters are raised where the digest has a small digit. -/
def addressHex (env : Env) (address : Address) : Bytes :=
  let unchecksummed := hexEncode address
  let hash := hexEncode (env.keccak256 unchecksummed).val
  List.zipWith (fun char digit =>
    if 57 < char.toNat ∧ (hexValue digit).getD 0 ≤ 7 then char - 32 else char) unchecksummed hash

/-! ### Making a key -/

/-- Three bytes for every seed. The slice at the end of the array takes none of them, and a
slice past the end panics. -/
def packSeeds (seeds : List Nat) : Go Bytes :=
  seeds.zipIdx.foldlM (fun wAddress entry =>
    copyAt wAddress ((entry.2 * 3 : Nat) : Int) ((bePad 8 entry.1).drop 5))
    (List.replicate wAddressLength 0)

def newMpcKey (env : Env) (id : Bytes) (pKey : Int × Int) (pShare : Int) (seeds : List Nat) :
    Go Key := do
  let encoded ← fromECDSAPub (some pKey)
  let address ← pubkeyToAddress env (some pKey)
  let privateKey : PrivateKey :=
    ⟨pShare, some ((pKey.1.natAbs : Int), (pKey.2.natAbs : Int))⟩
  let wAddress ← packSeeds seeds
  pure ⟨id, address, privateKey, privateKey, wAddress, hexEncode encoded⟩

/-! ### Encryption -/

/-- `math.PaddedBigBytes`: at least `n` bytes, with zeros in front. -/
def paddedBigBytes (z : Int) (n : Nat) : Bytes :=
  if byteLen z.natAbs ≤ n then bePad n z.natAbs else intBytes z

def scryptR : Int := 8

def scryptDKLen : Int := 32

/-- What one encryption draws. -/
structure Entropy where
  salt : Bytes
  iv : Bytes
  deriving DecidableEq, Repr

/-- The first half of a derived key encrypts, the second half authenticates. Both are sliced by
capacity, so that a key which was asked for shorter has them too. -/
def splitKey (derivedKey : Bytes) : Go (Bytes × Bytes) :=
  if derivedKey.length < 32 then .panic
  else .ok (derivedKey.take 16, (derivedKey.drop 16).take 16)

def encryptOnePrivateKey (kenv : KeyEnv) (privateKey : PrivateKey) (auth : Bytes)
    (scryptN scryptP : Int) (entropy : Entropy) : Go CryptoJSON := do
  let derivedKey ← kenv.scrypt auth entropy.salt scryptN scryptR scryptP scryptDKLen
  let (encryptKey, macKey) ← splitKey derivedKey
  let keyBytes := paddedBigBytes privateKey.d 32
  let cipherText ← kenv.aesCTRXOR encryptKey keyBytes entropy.iv
  let mac := kenv.keccak256 (macKey ++ cipherText)
  pure {
    cipher := utf8 "aes-128-ctr"
    cipherText := hexEncode cipherText
    iv := hexEncode entropy.iv
    kdf := utf8 "scrypt"
    n := some scryptN
    r := some scryptR
    p := some scryptP
    dklen := some scryptDKLen
    salt := some (hexEncode entropy.salt)
    mac := hexEncode mac.val }

def keyVersion : Int := 3

/-- What a key file says about a key, before it becomes text. -/
def keyRecord (kenv : KeyEnv) (key : Key) (auth : Bytes) (scryptN scryptP : Int)
    (entropy entropy2 : Entropy) : Go EncryptedKeyJSONV3 := do
  let crypto ← encryptOnePrivateKey kenv key.privateKey auth scryptN scryptP entropy
  let crypto2 ← encryptOnePrivateKey kenv key.privateKey2 auth scryptN scryptP entropy2
  pure {
    address := addressHex kenv.toEnv key.address
    crypto, crypto2
    id := key.id
    version := keyVersion
    waddress := hexEncode key.wAddress
    exten := key.exten }

def encryptKey (kenv : KeyEnv) (key : Key) (auth : Bytes) (scryptN scryptP : Int)
    (entropy entropy2 : Entropy) : Go Bytes := do
  let record ← keyRecord kenv key auth scryptN scryptP entropy entropy2
  kenv.marshalKey record

/-! ### Decryption -/

/-- A missing parameter fails its type assertion. -/
def assertType {α : Type} : Option α → Go α
  | some value => .ok value
  | none => .panic

def getKDFKey (kenv : KeyEnv) (item : CryptoJSON) (auth : Bytes) : Go Bytes := do
  let saltText ← assertType item.salt
  let salt ← decodeString saltText
  let dkLen ← assertType item.dklen
  if item.kdf = utf8 "scrypt" then do
    let n ← assertType item.n
    let r ← assertType item.r
    let p ← assertType item.p
    kenv.scrypt auth salt n r p dkLen
  else if item.kdf = utf8 "pbkdf2" then kenv.pbkdf2 auth item
  else .err (.new (utf8 "Unsupported KDF: " ++ item.kdf))

def errDecrypt : Err := .new (utf8 "could not decrypt key with given passphrase")

def decryptKeyV3Item (kenv : KeyEnv) (item : CryptoJSON) (auth : Bytes) : Go Bytes := do
  if item.cipher ≠ utf8 "aes-128-ctr" then
    .err (.new (utf8 "Cipher not supported: " ++ item.cipher))
  else do
    let mac ← decodeString item.mac
    let iv ← decodeString item.iv
    let cipherText ← decodeString item.cipherText
    let derivedKey ← getKDFKey kenv item auth
    let (decryptKey, macKey) ← splitKey derivedKey
    if (kenv.keccak256 (macKey ++ cipherText)).val ≠ mac then .err errDecrypt
    else kenv.aesCTRXOR decryptKey cipherText iv

/-- Files without a second key are read with an empty one. -/
def decryptKeyV3 (kenv : KeyEnv) (keyProtected : EncryptedKeyJSONV3) (auth : Bytes) :
    Go (Bytes × Bytes) := do
  if keyProtected.version ≠ keyVersion then
    .err (.new (utf8 ("Version not supported: " ++ toString keyProtected.version)))
  else do
    let plainText ← decryptKeyV3Item kenv keyProtected.crypto auth
    match decryptKeyV3Item kenv keyProtected.crypto2 auth with
    | .ok plainText2 => pure (plainText, plainText2)
    | .err error =>
      if keyProtected.crypto2.cipher = [] then pure (plainText, []) else .err error
    | .panic => .panic

def errInvalidPrivateKey : Err := .new (utf8 "invalid private key")

/-- A scalar of 32 bytes becomes a key whatever its value, with nil coordinates if need be. -/
def toECDSA (env : Env) (d : Bytes) : Go PrivateKey := do
  if 8 * d.length ≠ 256 then .err (.new (utf8 "invalid length, need 256 bits"))
  else do
    let publicKey ← env.curve.scalarBaseMult d
    pure ⟨beNat d, publicKey⟩

/-- Reading a file reports every bad scalar in the same way. -/
def toPrivateKey (env : Env) (d : Bytes) : Go PrivateKey :=
  match toECDSA env d with
  | .err _ => .err errInvalidPrivateKey
  | outcome => outcome

def decryptKey (kenv : KeyEnv) (keyjson auth : Bytes) : Go Key := do
  let version ← kenv.keyVersion keyjson
  if version = some (utf8 "1") then kenv.decryptKeyV1 keyjson auth
  else do
    let k ← kenv.unmarshalKey keyjson
    let (keyBytes, keyBytes2) ← decryptKeyV3 kenv k auth
    let key ← toPrivateKey kenv.toEnv keyBytes
    let key2 ← toPrivateKey kenv.toEnv keyBytes2
    let waddressRaw ← decodeString k.waddress
    let wAddress ← copyAt (List.replicate wAddressLength 0) 0 waddressRaw
    let address ← pubkeyToAddress kenv.toEnv key.publicKey
    pure ⟨k.id, address, key, key2, wAddress, k.exten⟩

end SchnorrMpc
