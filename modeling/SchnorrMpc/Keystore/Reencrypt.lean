import SchnorrMpc.Keystore.Store

/-!
# Encrypting a key again

A passphrase is changed by decrypting a key file and writing it again, and a key
moves to another directory by an export and an import. Decryption makes the
address from the scalar in the file; only `UpdateStoreman` sets it again.
-/
namespace SchnorrMpc

open Lib

namespace KeyStore

def openError (path : Bytes) : Err :=
  .new (utf8 "open " ++ path ++ utf8 ": no such file or directory")

/-- `GetKey` of the storage, which does not compare the address. -/
def getKey (kenv : KeyEnv) (ks : KeyStore) (path auth : Bytes) : Go Key :=
  match ks.files.lookup path with
  | none => .err (openError path)
  | some keyjson =>
    if keyjson.length = 0 then .err (.new (utf8 "key content invalid"))
    else decryptKey kenv keyjson auth

def getDecryptedKey (kenv : KeyEnv) (ks : KeyStore) (address : Address) (auth : Bytes)
    (reload : Option (List Bytes)) : Go (Account × Key × KeyStore) := do
  let (account, ks) ← ks.find kenv address reload
  let key ← ks.getKey kenv account.path auth
  pure (account, key, ks)

/-- The file is replaced as a whole. The index is left as it is. -/
def storeKey (kenv : KeyEnv) (ks : KeyStore) (path : Bytes) (key : Key) (auth : Bytes)
    (draw : KeyDraw) : Go KeyStore := do
  let keyjson ← encryptKey kenv key auth ks.scryptN ks.scryptP draw.entropy draw.entropy2
  match draw.write with
  | .error error => .err error
  | .ok () => pure { ks with files := Assoc.assign ks.files path keyjson }

def update (kenv : KeyEnv) (ks : KeyStore) (address : Address) (passphrase newPassphrase : Bytes)
    (reload : Option (List Bytes)) (draw : KeyDraw) : Go (Account × KeyStore) := do
  let (account, key, ks) ← ks.getDecryptedKey kenv address passphrase reload
  let ks ← ks.storeKey kenv account.path key newPassphrase draw
  pure (account, ks)

/-- The address that was asked for goes back into the key. -/
def updateStoreman (kenv : KeyEnv) (ks : KeyStore) (address : Address)
    (passphrase newPassphrase : Bytes) (reload : Option (List Bytes)) (draw : KeyDraw) :
    Go (Account × KeyStore) :=
  match ks.find kenv address reload with
  | .panic => .panic
  | .err _ => .err (.new (utf8 "storeman keystore file doesn't exist"))
  | .ok (account, ks) =>
    match ks.files.lookup account.path with
    | none => .err (openError account.path)
    | some keyjson => do
      let key ← decryptKey kenv keyjson passphrase
      let ks ← ks.storeKey kenv account.path { key with address } newPassphrase draw
      pure (account, ks)

/-- `Export`; nothing is written. -/
def exportJSON (kenv : KeyEnv) (ks : KeyStore) (address : Address)
    (passphrase newPassphrase : Bytes) (reload : Option (List Bytes)) (draw : KeyDraw) :
    Go Bytes := do
  let (_, key, ks) ← ks.getDecryptedKey kenv address passphrase reload
  encryptKey kenv key newPassphrase ks.scryptN ks.scryptP draw.entropy draw.entropy2

def keyFileName (env : Env) (timestamp : Bytes) (keyAddr : Address) : Bytes :=
  utf8 "UTC--" ++ timestamp ++ utf8 "--" ++ addressHex env keyAddr

def importKey (kenv : KeyEnv) (ks : KeyStore) (key : Key) (passphrase : Bytes) (draw : KeyDraw) :
    Go (Account × KeyStore) := do
  let account : Account :=
    ⟨key.address, ks.keydir ++ utf8 "/" ++ keyFileName kenv.toEnv draw.timestamp key.address⟩
  let ks ← ks.storeKey kenv account.path key passphrase draw
  pure (account, { ks with all := add ks.all account })

/-- `Import` of what `Export` returned, as a rule into another directory. -/
def importJSON (kenv : KeyEnv) (ks : KeyStore) (keyJSON passphrase newPassphrase : Bytes)
    (draw : KeyDraw) : Go (Account × KeyStore) := do
  let key ← decryptKey kenv keyJSON passphrase
  ks.importKey kenv key newPassphrase draw

/-! ### Files -/

theorem find_files {kenv : KeyEnv} {ks opened : KeyStore} {address : Address}
    {reload : Option (List Bytes)} {account : Account}
    (found : ks.find kenv address reload = .ok (account, opened)) :
    opened.files = ks.files ∧ opened.scryptN = ks.scryptN ∧ opened.scryptP = ks.scryptP := by
  cases reload with
  | none =>
    simp only [find, Outcome.bind_eq_ok_iff] at found
    obtain ⟨_, scans, _, -, built⟩ := found
    cases scans
    cases built
    exact ⟨rfl, rfl, rfl⟩
  | some modified =>
    simp only [find, scanAccounts, Outcome.bind_eq_ok_iff] at found
    obtain ⟨_, ⟨_, -, _, -, scans⟩, _, -, built⟩ := found
    cases scans
    cases built
    exact ⟨rfl, rfl, rfl⟩

end KeyStore
end SchnorrMpc
