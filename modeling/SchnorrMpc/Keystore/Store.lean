import SchnorrMpc.Keystore.Key
import SchnorrMpc.Lib.Assoc

/-!
# The key directory and its index

Accounts are found through an index of the key directory. Writing a key adds
its account at once; a rescan of the directory picks up what else has changed.
-/
namespace SchnorrMpc

open Lib

structure Account where
  address : Address
  path : Bytes
  deriving DecidableEq, Repr

/-- `all` is the index; `seen` are the files that the last scan of the directory saw. -/
structure KeyStore where
  keydir : Bytes
  scryptN : Int
  scryptP : Int
  files : Assoc Bytes Bytes
  all : List Account
  seen : List Bytes
  deriving DecidableEq, Repr

def zeroAddress : Address := List.replicate 20 0

namespace KeyStore

/-! ### The index -/

def add (all : List Account) (newAccount : Account) : List Account :=
  if newAccount ∈ all then all else all ++ [newAccount]

def deleteByFile (all : List Account) (path : Bytes) : List Account :=
  match all.find? (fun account => account.path = path) with
  | some removed => all.erase removed
  | none => all

def errNoMatch : Err := .new (utf8 "no key for given address or file")

/-- The accounts in question, by path, between commas. -/
def ambiguousAddrError (candidates : List Account) : Err :=
  let paths := (candidates.map Account.path).mergeSort (fun p q => decide (p ≤ q))
  .new (utf8 "multiple keys match address (" ++ (paths.intersperse (utf8 ", ")).flatten ++ utf8 ")")

/-- `accountCache.find` for an account without a path. The zero address stands for any. -/
def findInCache (all : List Account) (address : Address) : Go Account :=
  let candidates :=
    if address ≠ zeroAddress then all.filter (fun account => account.address = address) else all
  match candidates with
  | [account] => .ok account
  | [] => .err errNoMatch
  | _ => .err (ambiguousAddrError candidates)

/-! ### Scanning -/

/-- The last place at which `sub` occurs in `text`. -/
def lastIndex (text sub : Bytes) : Option Nat :=
  ((List.range (text.length + 1)).reverse).find? (fun i => (text.drop i).take sub.length = sub)

def cipherExt : Bytes := utf8 "-cipher"

/-- `hexutil.Decode` behind `StringtoPk`; only whether it succeeds matters to a scan. -/
def stringtoPk (text : Bytes) : Point :=
  if text.take 2 = utf8 "0x" ∨ text.take 2 = utf8 "0X" then
    match hexDecode (text.drop 2) with
    | .ok bytes => toECDSAPub bytes
    | .error _ => none
  else none

/-- The account of an encrypted file is read off its name. A name without a key gives the zero
address, and one that is too short is sliced past its end. -/
def readCipherAccount (env : Env) (path : Bytes) (addrBegin : Nat) : Go (Option Account) :=
  if path.length < addrBegin + 133 then .panic
  else do
    let encoded ← fromECDSAPub (stringtoPk ((path.drop (addrBegin + 1)).take 132))
    match pkToAddress env encoded with
    | .ok address => pure (some ⟨address, path⟩)
    | .err _ => pure (some ⟨zeroAddress, path⟩)
    | .panic => .panic

/-- `common.FromHex`: the bytes before the first bad digit. -/
def fromHex (text : Bytes) : Bytes :=
  if text.length ≤ 1 then []
  else
    let text := if text.take 2 = utf8 "0x" ∨ text.take 2 = utf8 "0X" then text.drop 2 else text
    (hexDecodeString (if text.length % 2 = 1 then 48 :: text else text)).1

/-- `common.HexToAddress`: the last 20 bytes, with zeros in front. -/
def hexToAddress (text : Bytes) : Address :=
  let bytes := fromHex text
  List.replicate (20 - bytes.length) 0 ++ bytes.drop (bytes.length - 20)

/-- A file that is not readable as a key, or whose address is zero, has no account. -/
def readPlainAccount (kenv : KeyEnv) (ks : KeyStore) (path : Bytes) : Option Account :=
  match ks.files.lookup path with
  | none => none
  | some content =>
    match kenv.unmarshalAddress content with
    | none => none
    | some text =>
      if hexToAddress text = zeroAddress then none else some ⟨hexToAddress text, path⟩

/-- A path one byte shorter than the extension compares equal to the missing index. -/
def readAccount (kenv : KeyEnv) (ks : KeyStore) (path : Bytes) : Go (Option Account) :=
  if path.length + 1 = cipherExt.length then .panic
  else if path.drop (path.length - cipherExt.length) = cipherExt then
    match lastIndex (path.take (path.length - cipherExt.length)) (utf8 "-") with
    | some addrBegin => readCipherAccount kenv.toEnv path addrBegin
    | none => .ok (readPlainAccount kenv ks path)
  else .ok (readPlainAccount kenv ks path)

/-- Read a file and index the account in it. -/
def indexFile (kenv : KeyEnv) (ks : KeyStore) (all : List Account) (path : Bytes) :
    Go (List Account) := do
  let account ← readAccount kenv ks path
  pure (match account with
    | some account => add all account
    | none => all)

/-- New files are added, missing ones dropped, and files with a later time stamp read again. -/
def scanAccounts (kenv : KeyEnv) (ks : KeyStore) (modified : List Bytes) : Go KeyStore := do
  let paths := ks.files.map Prod.fst
  let all ← (paths.filter (fun path => path ∉ ks.seen)).foldlM (indexFile kenv ks) ks.all
  let all := (ks.seen.filter (fun path => path ∉ paths)).foldl deleteByFile all
  let all ← (modified.filter (fun path => path ∈ paths ∧ path ∈ ks.seen)).foldlM
    (fun all path => indexFile kenv ks (deleteByFile all path) path) all
  pure { ks with all, seen := paths }

/-- `Find`. Whether the directory is scanned first, and which files look modified, depends on
the clock. -/
def find (kenv : KeyEnv) (ks : KeyStore) (address : Address) (reload : Option (List Bytes)) :
    Go (Account × KeyStore) := do
  let ks ← match reload with
    | some modified => ks.scanAccounts kenv modified
    | none => .ok ks
  let account ← findInCache ks.all address
  pure (account, ks)

/-! ### Writing a key -/

/-- What writing one key file draws, and how the file system answers. -/
structure KeyDraw where
  id : Bytes
  entropy : Entropy
  entropy2 : Entropy
  timestamp : Bytes
  write : Except Err Unit

/-- `JoinPath` of `keyFileNameWithPkString` for the empty account type. -/
def keyPath (ks : KeyStore) (timestamp encoded : Bytes) : Bytes :=
  ks.keydir ++ utf8 "/" ++ (utf8 "UTC--" ++ timestamp ++ utf8 "--" ++ utf8 "--"
    ++ (utf8 "0x" ++ hexEncode encoded))

/-- `NewStoremanAccount`: the file is in place before the index knows it. -/
def newStoremanAccount (kenv : KeyEnv) (ks : KeyStore) (pKey : Int × Int) (pShare : Int)
    (seeds : List Nat) (passphrase : Bytes) (draw : KeyDraw) : Go KeyStore := do
  let key ← newMpcKey kenv.toEnv draw.id pKey pShare seeds
  let encoded ← fromECDSAPub (some pKey)
  let path := ks.keyPath draw.timestamp encoded
  let keyjson ← encryptKey kenv key passphrase ks.scryptN ks.scryptP draw.entropy draw.entropy2
  match draw.write with
  | .error error => .err error
  | .ok () =>
    pure { ks with
      files := Assoc.assign ks.files path keyjson
      all := add ks.all ⟨key.address, path⟩ }

theorem newStoremanAccount_eq_ok {kenv : KeyEnv} {ks ks' : KeyStore} {pKey : Int × Int}
    {pShare : Int} {seeds : List Nat} {passphrase : Bytes} {draw : KeyDraw}
    (written : ks.newStoremanAccount kenv pKey pShare seeds passphrase draw = .ok ks') :
    ∃ path keyjson address, ks' = { ks with
      files := Assoc.assign ks.files path keyjson
      all := add ks.all ⟨address, path⟩ } := by
  simp only [newStoremanAccount, Outcome.bind_eq_ok_iff] at written
  obtain ⟨key, -, encoded, -, keyjson, -, stored⟩ := written
  split at stored
  · cases stored
  · cases stored
    exact ⟨_, _, _, rfl⟩

end KeyStore
end SchnorrMpc
