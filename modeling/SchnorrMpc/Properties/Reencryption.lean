import SchnorrMpc.Crypto.Reference
import SchnorrMpc.Keystore.Reencrypt
import SchnorrMpc.Lib.Codec
import SchnorrMpc.Properties.KeyFiles

/-!
# Key files that are encrypted again

`DecryptKey` makes the address of a key from the scalar in its file, which for a
storeman is a share and not the key of the group. `UpdateStoreman` puts the
address back before it writes; `Update` and an export with an import record the
address of the share, under which the account is not found any more.
-/
namespace SchnorrMpc

open Lib

variable {bytes text auth passphrase : Bytes} {ks after : KeyStore} {draw : KeyStore.KeyDraw}
  {reload : Option (List Bytes)} {account : Account} {seeds : List Nat} {point : Point}

/-- The ways to encrypt a key again, with what they are given and draw. -/
inductive Reencryption where
  | updateStoreman (newPassphrase : Bytes) (draw : KeyStore.KeyDraw)
  | update (newPassphrase : Bytes) (draw : KeyStore.KeyDraw)
  | exportImport (exportPassphrase newPassphrase : Bytes) (exportDraw draw : KeyStore.KeyDraw)
      (target : KeyStore)

namespace Reencryption

/-- The account of the file that is written, and the directory with it. -/
def run (kenv : KeyEnv) (ks : KeyStore) (address : Address) (passphrase : Bytes)
    (reload : Option (List Bytes)) : Reencryption → Go (Account × KeyStore)
  | updateStoreman newPassphrase draw =>
    ks.updateStoreman kenv address passphrase newPassphrase reload draw
  | update newPassphrase draw => ks.update kenv address passphrase newPassphrase reload draw
  | exportImport exportPassphrase newPassphrase exportDraw draw target => do
    let keyJSON ← ks.exportJSON kenv address passphrase exportPassphrase reload exportDraw
    target.importJSON kenv keyJSON exportPassphrase newPassphrase draw

def newPassphrase : Reencryption → Bytes
  | updateStoreman newPassphrase _ => newPassphrase
  | update newPassphrase _ => newPassphrase
  | exportImport _ newPassphrase _ _ _ => newPassphrase

/-- The address is put back before the file is written. -/
def restores : Reencryption → Bool
  | updateStoreman .. => true
  | _ => false

end Reencryption

/-! ### What a key file is good for -/

/-- The file records the address of the key, and opens to its share, seeds and group key. -/
def Holds (kenv : KeyEnv) (ks : KeyStore) (path passphrase : Bytes) (key : Key) : Prop :=
  ∃ text recorded read, ks.files.lookup path = some text ∧
    kenv.unmarshalAddress text = some recorded ∧ KeyStore.hexToAddress recorded = key.address ∧
    decryptKey kenv text passphrase = .ok read ∧ read.privateKey.d = key.privateKey.d ∧
    read.wAddress = key.wAddress ∧ read.exten = key.exten

/-- The other files can be read and are of other addresses. -/
def Alone (kenv : KeyEnv) (ks : KeyStore) (address : Address) (path : Bytes) : Prop :=
  ∀ other ∈ ks.files.map Prod.fst, other ≠ path → ∃ found,
    ks.readAccount kenv other = .ok found ∧ ∀ account ∈ found, ¬KeyStore.Matches address account

/-- The file holds the key, a node that is started again finds the address, and a node that finds
it loads the share, the group key and the table. -/
structure Keeps (kenv : KeyEnv) (ks : KeyStore) (account : Account) (passphrase : Bytes)
    (gpk : Int × Int) (key : Key) : Prop where
  holds : Holds kenv ks account.path passphrase key
  finds : key.address ≠ zeroAddress → Alone kenv ks key.address account.path →
    ∀ modified, ∃ opened, ({ ks with all := [], seen := [] } : KeyStore).find kenv key.address
      (some modified) = .ok (⟨key.address, account.path⟩, opened) ∧ opened.files = ks.files
  loads : ∀ (srv : MpcDistributor) (reload : Option (List Bytes)) (opened : KeyStore)
    (peers : List PeerInfo),
    srv.keyStore.find kenv key.address reload = .ok (⟨key.address, account.path⟩, opened) →
    opened.files = ks.files → srv.password = passphrase → srv.enableAwsKms = false →
    srv.mpcAccountMap.lookup key.address = none →
    MpcDistributor.unpackSeeds key.wAddress srv.storeManGroup 0 (List.replicate 8 0) = .ok peers →
    ∃ srv', srv.loadStoremanAddress kenv key.address reload =
      .ok (⟨key.privateKey.d, gpk, peers⟩, srv')

/-- What the packages behind key files are known for. -/
structure KeyPackages (ecmult : Ecmult)
    (kenv : KeyEnv) : Prop where
  curve : kenv.curve = BitCurve.curve ecmult
  json : ∀ record, JsonRoundTrips kenv record
  nonempty : ∀ record, kenv.marshalKey record ≠ .ok []

/-- The cipher under this passphrase, with what is drawn. -/
structure Seals (kenv : KeyEnv) (ks : KeyStore) (auth : Bytes)
    (draw : KeyStore.KeyDraw) : Prop where
  laws : CipherLaws kenv auth ks.scryptN ks.scryptP
  iv : draw.entropy.iv.length = 16
  iv2 : draw.entropy2.iv.length = 16

/-- The cipher and the file system are at hand for the operation. -/
def Reencryption.Sealed (kenv : KeyEnv) (ks : KeyStore) : Reencryption → Prop
  | updateStoreman newPassphrase draw => Seals kenv ks newPassphrase draw ∧ draw.write = .ok ()
  | update newPassphrase draw => Seals kenv ks newPassphrase draw ∧ draw.write = .ok ()
  | exportImport exportPassphrase newPassphrase exportDraw draw target =>
    Seals kenv ks exportPassphrase exportDraw ∧ Seals kenv target newPassphrase draw ∧
      draw.write = .ok ()

/-! ### The share in a file -/

section

variable {ecmult : Ecmult} {kenv : KeyEnv}

/-- A scalar that has a public key is in range. -/
theorem toPrivateKey_range (curve : kenv.curve = BitCurve.curve ecmult) {key : PrivateKey}
    {address : Address} (read : toPrivateKey kenv.toEnv bytes = .ok key)
    (addressed : pubkeyToAddress kenv.toEnv key.publicKey = .ok address) :
    0 < key.d ∧ key.d < S256.N := by
  have made : toECDSA kenv.toEnv bytes = .ok key := by
    unfold toPrivateKey at read
    split at read
    · cases read
    · exact read
  unfold toECDSA at made
  split at made
  · cases made
  · simp only [Outcome.bind_eq_ok_iff, curve, Curve.scalarBaseMult, BitCurve.curve,
      BitCurve.scalarMult, S256.G] at made
    obtain ⟨publicKey, multiplied, built⟩ := made
    cases built
    split at multiplied
    · cases multiplied
    · split at multiplied
      next refused =>
        -- a nil key has no address
        cases multiplied
        cases addressed
      next accepted =>
        unfold BitCurve.pubkeyScalarMul at accepted
        split at accepted
        · cases accepted
        next inRange =>
          obtain ⟨small, nonzero⟩ := not_or.mp inRange
          simp only
          omega

theorem decryptKey_range (curve : kenv.curve = BitCurve.curve ecmult) {key : Key}
    (version : kenv.keyVersion text = .ok none) (read : decryptKey kenv text auth = .ok key) :
    0 < key.privateKey.d ∧ key.privateKey.d < S256.N := by
  simp only [decryptKey, version, Outcome.ok_bind, reduceCtorEq, if_false,
    Outcome.bind_eq_ok_iff] at read
  obtain ⟨_, -, _, -, _, toKey, _, -, _, -, _, -, _, addressed, built⟩ := read
  cases built
  exact toPrivateKey_range curve toKey addressed

/-- What a file says after it has been written with a key of this share. -/
theorem storeKey_spec (packages : KeyPackages ecmult kenv) (seals : Seals kenv ks auth draw)
    (written : draw.write = .ok ()) (path : Bytes) {key : Key} (positive : 0 < key.privateKey.d)
    (below : key.privateKey.d < S256.N) (twice : key.privateKey2 = key.privateKey)
    (field : key.wAddress.length = wAddressLength) :
    ∃ text read, ks.storeKey kenv path key auth draw =
        .ok { ks with files := Assoc.assign ks.files path text } ∧
      kenv.unmarshalAddress text = some (addressHex kenv.toEnv key.address) ∧
      decryptKey kenv text auth = .ok read ∧ read.privateKey.d = key.privateKey.d ∧
      read.wAddress = key.wAddress ∧ read.exten = key.exten := by
  obtain ⟨text, encrypted, recorded, read, decrypted, same⟩ :=
    decryptKey_encryptKey packages.curve seals.laws positive below twice field seals.iv seals.iv2
      fun record _ => packages.json record
  refine ⟨text, read, ?_, recorded, decrypted, same⟩
  rw [KeyStore.storeKey, encrypted, Outcome.ok_bind, written]
  rfl

theorem keyVersion_of_storeKey (packages : KeyPackages ecmult kenv) {path : Bytes} {key : Key}
    (stored : ks.storeKey kenv path key auth draw = .ok after)
    (found : after.files.lookup path = some text) : kenv.keyVersion text = .ok none := by
  simp only [KeyStore.storeKey, encryptKey, Outcome.bind_eq_ok_iff] at stored
  obtain ⟨keyjson, ⟨record, -, marshalled⟩, written⟩ := stored
  split at written
  · cases written
  · cases written
    rw [Assoc.lookup_assign, if_pos rfl] at found
    cases found
    obtain ⟨text', marshalled', version, -⟩ := packages.json record
    cases marshalled.symm.trans marshalled'
    exact version

end

namespace Reencryption

/-- Every operation ends with the file of its account. -/
theorem storeKey_of_run {kenv : KeyEnv} {address : Address} {op : Reencryption}
    (ran : op.run kenv ks address passphrase reload = .ok (account, after)) :
    ∃ (before stored : KeyStore) (key : Key) (auth : Bytes) (draw : KeyStore.KeyDraw),
      before.storeKey kenv account.path key auth draw = .ok stored ∧
      after.files = stored.files := by
  cases op with
  | updateStoreman newPassphrase draw =>
    simp only [run, KeyStore.updateStoreman] at ran
    split at ran
    · cases ran
    · cases ran
    · split at ran
      · cases ran
      · simp only [Outcome.bind_eq_ok_iff] at ran
        obtain ⟨_, -, stored, isStored, built⟩ := ran
        cases built
        exact ⟨_, _, _, _, _, isStored, rfl⟩
  | update newPassphrase draw =>
    simp only [run, KeyStore.update, Outcome.bind_eq_ok_iff] at ran
    obtain ⟨_, -, stored, isStored, built⟩ := ran
    cases built
    exact ⟨_, _, _, _, _, isStored, rfl⟩
  | exportImport exportPassphrase newPassphrase exportDraw draw target =>
    simp only [run, KeyStore.importJSON, KeyStore.importKey, Outcome.bind_eq_ok_iff] at ran
    obtain ⟨_, -, _, -, stored, isStored, built⟩ := ran
    cases built
    exact ⟨_, _, _, _, _, isStored, rfl⟩

end Reencryption

/-! ### Finding and loading -/

section

variable {kenv : KeyEnv} {ks : KeyStore} {path passphrase : Bytes} {key : Key}

theorem Holds.finds (holds : Holds kenv ks path passphrase key)
    (plain : ks.readAccount kenv path = .ok (ks.readPlainAccount kenv path))
    (nonzero : key.address ≠ zeroAddress) (alone : Alone kenv ks key.address path)
    (modified : List Bytes) :
    ∃ opened, ({ ks with all := [], seen := [] } : KeyStore).find kenv key.address
      (some modified) = .ok (⟨key.address, path⟩, opened) ∧ opened.files = ks.files := by
  obtain ⟨text, recorded, read, stored, unmarshalled, isAddress, -⟩ := holds
  let fresh : KeyStore := { ks with all := [], seen := [] }
  have same (other : Bytes) : fresh.readAccount kenv other = ks.readAccount kenv other :=
    readAccount_congr rfl
  have file : KeyStore.SoleFile kenv fresh key.address path := by
    refine ⟨List.mem_map_of_mem (Assoc.mem_of_lookup stored), List.not_mem_nil,
      fun other listed differs => ?_, ?_⟩
    · obtain ⟨found, read, apart⟩ := alone other listed differs
      exact ⟨found, (same other).trans read, apart⟩
    · rw [same, plain, readPlainAccount_eq stored unmarshalled isAddress]
  exact KeyStore.find_sole file (some modified) (.inr ⟨rfl, nonzero, by simp⟩)

theorem Holds.loads {gpk : Int × Int} {encoded : Bytes} (holds : Holds kenv ks path passphrase key)
    (exten : key.exten = hexEncode encoded) (decodes : toECDSAPub encoded = some gpk)
    {srv : MpcDistributor} {opened : KeyStore} {peers : List PeerInfo}
    (found : srv.keyStore.find kenv key.address reload = .ok (⟨key.address, path⟩, opened))
    (files : opened.files = ks.files) (password : srv.password = passphrase)
    (noKms : srv.enableAwsKms = false) (unloaded : srv.mpcAccountMap.lookup key.address = none)
    (unpacked : MpcDistributor.unpackSeeds key.wAddress srv.storeManGroup 0 (List.replicate 8 0) =
      .ok peers) :
    ∃ srv', srv.loadStoremanAddress kenv key.address reload =
      .ok (⟨key.privateKey.d, gpk, peers⟩, srv') := by
  obtain ⟨text, recorded, read, stored, -, -, decrypted, share, field, sameExten⟩ := holds
  have isShare : srv.getPrivateShare kenv key.address reload = .ok (read, opened) := by
    simp only [MpcDistributor.getPrivateShare, found, files, stored, noKms, password, decrypted,
      Outcome.ok_bind, Outcome.pure_eq, Bool.false_eq_true, if_false]
  simp only [MpcDistributor.loadStoremanAddress, MpcDistributor.loadAccount, unloaded, isShare,
    unpacked, share, field, sameExten, exten, hexDecodeString_hexEncode, decodes, Outcome.ok_bind,
    Outcome.pure_eq]
  exact ⟨_, rfl⟩

theorem keeps_iff_holds {gpk : Int × Int} {encoded : Bytes}
    (plain : ks.readAccount kenv account.path = .ok (ks.readPlainAccount kenv account.path))
    (exten : key.exten = hexEncode encoded) (decodes : toECDSAPub encoded = some gpk) :
    Keeps kenv ks account passphrase gpk key ↔ Holds kenv ks account.path passphrase key := by
  refine ⟨Keeps.holds, fun holds => ⟨holds, holds.finds plain, ?_⟩⟩
  intro srv reload opened peers found files password noKms unloaded unpacked
  exact holds.loads exten decodes found files password noKms unloaded unpacked

end

/-! ### The file of a new account -/

/-- A key as `NewStoremanAccount` makes it, in a file that opens with the passphrase. -/
structure StoremanFile (kenv : KeyEnv) (ks : KeyStore) (path passphrase encoded : Bytes)
    (gpk : Int × Int) (key : Key) : Prop where
  twice : key.privateKey2 = key.privateKey
  field : key.wAddress.length = wAddressLength
  addressLength : key.address.length = 20
  exten : key.exten = hexEncode encoded
  encodedLength : encoded.length = 65
  decodes : toECDSAPub encoded = some gpk
  named : hexEncode encoded <:+ path
  opens : 0 < key.privateKey.d → key.privateKey.d < S256.N → ∃ text point address,
    ks.files.lookup path = some text ∧ text ≠ [] ∧
    kenv.curve.scalarBaseMult (bePad 32 key.privateKey.d.natAbs) = .ok point ∧
    pubkeyToAddress kenv.toEnv point = .ok address ∧
    decryptKey kenv text passphrase = .ok ⟨key.id, address, ⟨key.privateKey.d, point⟩,
      ⟨key.privateKey.d, point⟩, key.wAddress, key.exten⟩

theorem length_packSeeds {wAddress : Bytes} (packed : packSeeds seeds = .ok wAddress) :
    wAddress.length = wAddressLength := by
  refine Outcome.foldlM_invariant (fun wAddress : Bytes => wAddress.length = wAddressLength)
    (fun before after entry _ length copied => ?_) (List.length_replicate) packed
  rw [length_copyAt copied, length]

theorem length_pubkeyToAddress {env : Env} {address : Address}
    (addressed : pubkeyToAddress env point = .ok address) : address.length = 20 := by
  simp only [pubkeyToAddress, Outcome.bind_eq_ok_iff] at addressed
  obtain ⟨pubBytes, -, hashed⟩ := addressed
  split at hashed
  · cases hashed
  · cases hashed
    rw [List.length_drop, (env.keccak256 _).property]

section

variable {ecmult : Ecmult} {kenv : KeyEnv}
  {gpk : Int × Int} {key : Key}

theorem scalarBaseMult_of_toPrivateKey {d : Int}
    (read : toPrivateKey kenv.toEnv bytes = .ok ⟨d, point⟩) :
    kenv.curve.scalarBaseMult bytes = .ok point := by
  unfold toPrivateKey toECDSA at read
  split at read
  · cases read
  · split at read
    · cases read
    · obtain ⟨publicKey, multiplied, built⟩ := (Outcome.bind_eq_ok_iff ..).mp read
      cases built
      exact multiplied

theorem storemanFile_of_newStoremanAccount (packages : KeyPackages ecmult kenv) {ks' : KeyStore}
    {share : Int} (onCurve : OnCurve gpk) (seals : Seals kenv ks passphrase draw)
    (made : newMpcKey kenv.toEnv draw.id gpk share seeds = .ok key)
    (written : ks.newStoremanAccount kenv gpk share seeds passphrase draw = .ok ks') :
    ∃ encoded, fromECDSAPub (some gpk) = .ok encoded ∧ key.privateKey.d = share ∧
      ks'.scryptN = ks.scryptN ∧ ks'.scryptP = ks.scryptP ∧
      StoremanFile kenv ks' (ks.keyPath draw.timestamp encoded) passphrase encoded gpk key := by
  obtain ⟨encoded, encodes, encodedLength, decodes⟩ := toECDSAPub_fromECDSAPub onCurve
  have same := made
  simp only [newMpcKey, encodes, Outcome.ok_bind, Outcome.bind_eq_ok_iff] at made
  obtain ⟨address, addressed, wAddress, packed, built⟩ := made
  simp only [KeyStore.newStoremanAccount, same, encodes, Outcome.ok_bind,
    Outcome.bind_eq_ok_iff] at written
  obtain ⟨keyjson, encrypted, stored⟩ := written
  split at stored
  · cases stored
  · cases stored
    cases built
    have field := length_packSeeds packed
    refine ⟨encoded, encodes, rfl, rfl, rfl, rfl, field, length_pubkeyToAddress addressed, rfl,
      encodedLength, decodes, ?_, fun positive below => ?_⟩
    · simp only [KeyStore.keyPath, ← List.append_assoc]
      exact List.suffix_append _ _
    · obtain ⟨text, point, shareAddress, encrypted', -, toKey, toAddress, decrypted⟩ :=
        decryptKey_encryptKey_eq packages.curve seals.laws positive below rfl field seals.iv
          seals.iv2 fun record _ => packages.json record
      cases encrypted.symm.trans encrypted'
      refine ⟨keyjson, point, shareAddress, ?_, ?_, ?_, toAddress, decrypted⟩
      · rw [Assoc.lookup_assign, if_pos rfl]
      · rintro rfl
        obtain ⟨record, -, marshalled⟩ := (Outcome.bind_eq_ok_iff ..).mp encrypted
        exact packages.nonempty record marshalled
      · exact scalarBaseMult_of_toPrivateKey toKey

end

/-! ### Writing the key again -/

section

variable {ecmult : Ecmult} {kenv : KeyEnv}
  {gpk : Int × Int} {key : Key} {path passphrase encoded : Bytes} {ks : KeyStore}

/-- A key that is written again under some address is the old one exactly if the address is. -/
theorem storeKey_holds_iff (packages : KeyPackages ecmult kenv) (seals : Seals kenv ks auth draw)
    (written : draw.write = .ok ()) (path : Bytes) (key read : Key)
    (positive : 0 < read.privateKey.d) (below : read.privateKey.d < S256.N)
    (twice : read.privateKey2 = read.privateKey) (field : read.wAddress.length = wAddressLength)
    (length : read.address.length = 20) (share : read.privateKey.d = key.privateKey.d)
    (seeds : read.wAddress = key.wAddress) (exten : read.exten = key.exten) :
    ∃ text, ks.storeKey kenv path read auth draw =
        .ok { ks with files := Assoc.assign ks.files path text } ∧
      ∀ after : KeyStore, after.files = Assoc.assign ks.files path text →
        (Holds kenv after path auth key ↔ read.address = key.address) := by
  obtain ⟨text, opened, stored, recorded, decrypted, sameShare, sameSeeds, sameExten⟩ :=
    storeKey_spec packages seals written path positive below twice field
  have isAddress := hexToAddress_addressHex kenv.toEnv length
  refine ⟨text, stored, fun after files => ?_⟩
  have found : after.files.lookup path = some text := by
    rw [files, Assoc.lookup_assign, if_pos rfl]
  constructor
  · rintro ⟨text', recorded', read', found', unmarshalled, address, -⟩
    cases found.symm.trans found'
    cases recorded.symm.trans unmarshalled
    rw [← isAddress, address]
  · intro same
    exact ⟨text, _, opened, found, recorded, isAddress.trans same, decrypted, sameShare.trans share,
      sameSeeds.trans seeds, sameExten.trans exten⟩

variable {opened : KeyStore} {reload : Option (List Bytes)}

theorem Seals.searched (seals : Seals kenv ks auth draw)
    (found : ks.find kenv key.address reload = .ok (account, opened)) :
    Seals kenv opened auth draw := by
  obtain ⟨-, sameN, sameP⟩ := KeyStore.find_files found
  refine ⟨?_, seals.iv, seals.iv2⟩
  rw [sameN, sameP]
  exact seals.laws

theorem StoremanFile.readAccount_plain
    (file : StoremanFile kenv ks path passphrase encoded gpk key) (after : KeyStore) :
    after.readAccount kenv path = .ok (after.readPlainAccount kenv path) := by
  refine readAccount_of_digits kenv after file.named ?_ fun _ => hexValue_of_mem_hexEncode
  rw [length_hexEncode, file.encodedLength]
  decide

theorem readAccount_imported {timestamp : Bytes} {address : Address}
    (length : address.length = 20) :
    let path := ks.keydir ++ utf8 "/" ++ KeyStore.keyFileName kenv.toEnv timestamp address
    after.readAccount kenv path = .ok (after.readPlainAccount kenv path) := by
  have named : addressHex kenv.toEnv address <:+
      ks.keydir ++ utf8 "/" ++ KeyStore.keyFileName kenv.toEnv timestamp address := by
    simp only [KeyStore.keyFileName, ← List.append_assoc]
    exact List.suffix_append _ _
  refine readAccount_of_digits kenv after named ?_ fun _ => hexValue_of_mem_addressHex length
  rw [length_addressHex kenv.toEnv length]
  decide

variable (file : StoremanFile kenv ks path passphrase encoded gpk key)
  (found : ks.find kenv key.address reload = .ok (⟨key.address, path⟩, opened))
  (positive : 0 < key.privateKey.d) (below : key.privateKey.d < S256.N)

def SharesAddress (kenv : KeyEnv) (key : Key) : Prop :=
  (kenv.curve.scalarBaseMult (bePad 32 key.privateKey.d.natAbs) >>= pubkeyToAddress kenv.toEnv) =
    .ok key.address

include file found positive below

/-- The key as it is read from the file for an update or an export. -/
theorem getDecryptedKey_eq : ∃ point address,
    kenv.curve.scalarBaseMult (bePad 32 key.privateKey.d.natAbs) = .ok point ∧
    pubkeyToAddress kenv.toEnv point = .ok address ∧
    (SharesAddress kenv key ↔ address = key.address) ∧
    ks.getDecryptedKey kenv key.address passphrase reload = .ok (⟨key.address, path⟩,
      ⟨key.id, address, ⟨key.privateKey.d, point⟩, ⟨key.privateKey.d, point⟩, key.wAddress,
        key.exten⟩, opened) := by
  obtain ⟨text, point, address, stored, nonempty, multiplied, addressed, decrypted⟩ :=
    file.opens positive below
  refine ⟨point, address, multiplied, addressed, ?_, ?_⟩
  · rw [SharesAddress, multiplied, Outcome.ok_bind, addressed, Outcome.ok.injEq]
  · rw [KeyStore.getDecryptedKey, found, Outcome.ok_bind]
    simp only [KeyStore.getKey, (KeyStore.find_files found).1, stored]
    rw [if_neg (List.length_eq_zero_iff.not.mpr nonempty), decrypted]
    rfl

theorem updateStoreman_keeps (packages : KeyPackages ecmult kenv) {newPassphrase : Bytes}
    (seals : Seals kenv ks newPassphrase draw) (written : draw.write = .ok ()) : ∃ account after,
    ks.updateStoreman kenv key.address passphrase newPassphrase reload draw = .ok (account, after) ∧
      Keeps kenv after account newPassphrase gpk key := by
  obtain ⟨text, point, address, stored, -, -, -, decrypted⟩ := file.opens positive below
  let read : Key := ⟨key.id, key.address, ⟨key.privateKey.d, point⟩, ⟨key.privateKey.d, point⟩,
    key.wAddress, key.exten⟩
  obtain ⟨text', rewritten, holds⟩ := storeKey_holds_iff packages (seals.searched found) written
    path key read positive below rfl file.field file.addressLength rfl rfl rfl
  refine ⟨⟨key.address, path⟩, { opened with files := Assoc.assign opened.files path text' }, ?_,
    ?_⟩
  · simp only [KeyStore.updateStoreman, found, (KeyStore.find_files found).1, stored, decrypted,
      Outcome.ok_bind]
    rw [rewritten, (KeyStore.find_files found).1]
    rfl
  · rw [keeps_iff_holds (file.readAccount_plain _) file.exten file.decodes]
    exact (holds _ rfl).mpr rfl

theorem update_keeps_iff (packages : KeyPackages ecmult kenv) {newPassphrase : Bytes}
    (seals : Seals kenv ks newPassphrase draw) (written : draw.write = .ok ()) : ∃ account after,
    ks.update kenv key.address passphrase newPassphrase reload draw = .ok (account, after) ∧
      (Keeps kenv after account newPassphrase gpk key ↔ SharesAddress kenv key) := by
  obtain ⟨point, address, -, addressed, same, read⟩ :=
    getDecryptedKey_eq file found positive below
  obtain ⟨text', rewritten, holds⟩ := storeKey_holds_iff packages (seals.searched found) written
    path key ⟨key.id, address, ⟨key.privateKey.d, point⟩, ⟨key.privateKey.d, point⟩, key.wAddress,
      key.exten⟩ positive below rfl file.field (length_pubkeyToAddress addressed) rfl rfl rfl
  refine ⟨⟨key.address, path⟩, { opened with files := Assoc.assign opened.files path text' }, ?_,
    ?_⟩
  · rw [KeyStore.update, read, Outcome.ok_bind]
    simp only [rewritten]
    rfl
  · rw [keeps_iff_holds (file.readAccount_plain _) file.exten file.decodes, same]
    exact holds _ rfl

theorem exportImport_keeps_iff (packages : KeyPackages ecmult kenv)
    {exportPassphrase newPassphrase : Bytes} {exportDraw : KeyStore.KeyDraw} {target : KeyStore}
    (exportSeals : Seals kenv ks exportPassphrase exportDraw)
    (seals : Seals kenv target newPassphrase draw) (written : draw.write = .ok ()) :
    ∃ account after, Reencryption.run kenv ks key.address passphrase reload
        (.exportImport exportPassphrase newPassphrase exportDraw draw target) =
          .ok (account, after) ∧
      (Keeps kenv after account newPassphrase gpk key ↔ SharesAddress kenv key) := by
  obtain ⟨point, address, multiplied, addressed, same, read⟩ :=
    getDecryptedKey_eq file found positive below
  let exportedKey : Key := ⟨key.id, address, ⟨key.privateKey.d, point⟩, ⟨key.privateKey.d, point⟩,
    key.wAddress, key.exten⟩
  -- the exported text opens to the key that went into it
  have searched := exportSeals.searched found
  obtain ⟨text, point', address', exported, -, toKey, addressed', decrypted⟩ :=
    decryptKey_encryptKey_eq packages.curve searched.laws
      (show 0 < exportedKey.privateKey.d from positive) below rfl file.field searched.iv
        searched.iv2
      fun record _ => packages.json record
  cases (scalarBaseMult_of_toPrivateKey toKey).symm.trans multiplied
  cases addressed'.symm.trans addressed
  let path' := target.keydir ++ utf8 "/" ++
    KeyStore.keyFileName kenv.toEnv draw.timestamp address
  obtain ⟨text', rewritten, holds⟩ :=
    storeKey_holds_iff packages seals written path' key exportedKey positive below rfl file.field
      (length_pubkeyToAddress addressed) rfl rfl rfl
  simp only [exportedKey] at exported decrypted rewritten holds
  let files := Assoc.assign target.files path' text'
  refine ⟨⟨address, path'⟩,
    { target with files, all := KeyStore.add target.all ⟨address, path'⟩ }, ?_, ?_⟩
  · simp only [Reencryption.run, KeyStore.exportJSON, read, Outcome.ok_bind, exported,
      KeyStore.importJSON, decrypted, KeyStore.importKey]
    rw [show target.keydir ++ utf8 "/" ++ KeyStore.keyFileName kenv.toEnv draw.timestamp address =
      path' from rfl, rewritten]
    rfl
  · rw [keeps_iff_holds (readAccount_imported (length_pubkeyToAddress addressed)) file.exten
      file.decodes, same]
    exact holds _ rfl

end

/-- The file of a storeman account is as good as before after it has been encrypted again exactly
if its share is in range and the address is put back or happens to be that of the share. -/
theorem reencryption_keeps_iff
    (ecmult : Ecmult) (kenv : KeyEnv)
    (packages : KeyPackages ecmult kenv) (ks ks' opened : KeyStore) (gpk : Int × Int)
    (onCurve : OnCurve gpk) (share : Int) (seeds : List Nat) (passphrase encoded : Bytes)
    (draw : KeyStore.KeyDraw) (seals : Seals kenv ks passphrase draw) (key : Key)
    (made : newMpcKey kenv.toEnv draw.id gpk share seeds = .ok key)
    (written : ks.newStoremanAccount kenv gpk share seeds passphrase draw = .ok ks')
    (encodes : fromECDSAPub (some gpk) = .ok encoded) (reload : Option (List Bytes))
    (found : ks'.find kenv key.address reload =
      .ok (⟨key.address, ks.keyPath draw.timestamp encoded⟩, opened))
    (op : Reencryption) (sealed : op.Sealed kenv ks') :
    (∃ account after, op.run kenv ks' key.address passphrase reload = .ok (account, after) ∧
      Keeps kenv after account op.newPassphrase gpk key) ↔
    (0 < share ∧ share < S256.N) ∧ (op.restores = true ∨ SharesAddress kenv key) := by
  obtain ⟨encoded', encodes', rfl, -, -, file⟩ :=
    storemanFile_of_newStoremanAccount packages onCurve seals made written
  cases encodes.symm.trans encodes'
  constructor
  · rintro ⟨account, after, ran, keeps⟩
    -- the new file opens, so its share is in range
    have range : 0 < key.privateKey.d ∧ key.privateKey.d < S256.N := by
      obtain ⟨_, stored, _, _, _, isStored, files⟩ := Reencryption.storeKey_of_run ran
      obtain ⟨text, _, read, there, -, -, decrypted, share, -⟩ := keeps.holds
      have version := keyVersion_of_storeKey packages isStored (files ▸ there)
      rw [← share]
      exact decryptKey_range packages.curve version decrypted
    refine ⟨range, ?_⟩
    cases op with
    | updateStoreman => exact .inl rfl
    | update newPassphrase draw =>
      obtain ⟨account', after', ran', iff⟩ :=
        update_keeps_iff file found range.1 range.2 packages sealed.1 sealed.2
      cases ran.symm.trans ran'
      exact .inr (iff.mp keeps)
    | exportImport exportPassphrase newPassphrase exportDraw draw target =>
      obtain ⟨account', after', ran', iff⟩ := exportImport_keeps_iff file found range.1 range.2
        packages sealed.1 sealed.2.1 sealed.2.2
      cases ran.symm.trans ran'
      exact .inr (iff.mp keeps)
  · rintro ⟨⟨positive, below⟩, address⟩
    cases op with
    | updateStoreman newPassphrase draw =>
      exact updateStoreman_keeps file found positive below packages sealed.1 sealed.2
    | update newPassphrase draw =>
      obtain ⟨account, after, ran, iff⟩ :=
        update_keeps_iff file found positive below packages sealed.1 sealed.2
      exact ⟨account, after, ran, iff.mpr (address.resolve_left (by simp [Reencryption.restores]))⟩
    | exportImport exportPassphrase newPassphrase exportDraw draw target =>
      obtain ⟨account, after, ran, iff⟩ := exportImport_keeps_iff file found positive below packages
        sealed.1 sealed.2.1 sealed.2.2
      exact ⟨account, after, ran, iff.mpr (address.resolve_left (by simp [Reencryption.restores]))⟩

/-! ### Share one of twice the base point -/

namespace ReencryptSample

deriving instance Encodable for CryptoJSON

deriving instance Encodable for EncryptedKeyJSONV3

def gpk : Int × Int := S256.double

def env : KeyEnv where
  curve := BitCurve.curve Reference.ecmult
  sha256 _ := word 0
  keccak256 bytes :=
    if bytes = bePad 32 S256.Gx ++ bePad 32 S256.Gy then
      word 0xc0a6c424ac7157ae408398df7e5f4552091a69125d5dfcb7b8c2659029395bdf
    else if bytes = bePad 32 gpk.1.natAbs ++ bePad 32 gpk.2.natAbs then
      word 0xeedf1a9c68b3f4a8b1a1032b2b5ad5c4795c026514f8317c7a215e218dccd6cf
    else word 0
  scrypt _ _ _ _ _ _ := .ok KeyFileSample.derivedKey
  pbkdf2 _ _ := .panic
  aesCTRXOR _ text _ := .ok (KeyFileSample.xorStream text KeyFileSample.cipherText)
  marshalKey record := .ok (textOf record)
  unmarshalKey text := match valueOf text with
    | some record => .ok record
    | none => .err (.new [])
  keyVersion _ := .ok none
  unmarshalAddress text := (valueOf text).map EncryptedKeyJSONV3.address
  decryptKeyV1 _ _ := .panic
  decryptFileToBuffer _ := .panic

theorem packages : KeyPackages Reference.ecmult env where
  curve := rfl
  json record := ⟨textOf record, rfl, rfl, by simp [env, valueOf_textOf],
    by simp [env, valueOf_textOf]⟩
  nonempty record empty := textOf_ne_nil record (Outcome.ok.inj empty)

theorem laws (auth : Bytes) (n p : Int) : CipherLaws env auth n p where
  scrypt _ := ⟨KeyFileSample.derivedKey, rfl, by decide⟩
  aesCTRXOR _ _ _ _ _ := ⟨_, rfl, congrArg Outcome.ok (KeyFileSample.xorStream_twice _ _)⟩

def directory (name : String) : KeyStore := ⟨utf8 name, 4096, 6, [], [], []⟩

theorem seals (name : String) (auth : Bytes) :
    Seals env (directory name) auth KeyFileSample.draw :=
  ⟨laws auth _ _, rfl, rfl⟩

def address : Address := bePad 20 0x2b5ad5c4795c026514f8317c7a215e218dccd6cf

def encoded : Bytes := 4 :: (bePad 32 gpk.1.natAbs ++ bePad 32 gpk.2.natAbs)

def key : Key :=
  ⟨KeyFileSample.draw.id, address, ⟨1, some gpk⟩, ⟨1, some gpk⟩,
    [0, 0, 5, 0, 0, 6] ++ List.replicate 60 0, hexEncode encoded⟩

theorem gpk_onCurve : OnCurve gpk := by
  constructor <;> decide +kernel

theorem made : newMpcKey env.toEnv KeyFileSample.draw.id gpk 1 [5, 6] = .ok key := by
  decide +kernel

theorem encodes : fromECDSAPub (some gpk) = .ok encoded := by
  decide +kernel

def path : Bytes := (directory "/keystore").keyPath KeyFileSample.draw.timestamp encoded

theorem written : ∃ ks', (directory "/keystore").newStoremanAccount env gpk 1 [5, 6] (utf8 "old")
      KeyFileSample.draw = .ok ks' ∧ ks'.find env address none = .ok (⟨address, path⟩, ks') := by
  have sealing := seals "/keystore" (utf8 "old")
  obtain ⟨text, encrypted, -⟩ := decryptKey_encryptKey packages.curve sealing.laws
    (by decide : 0 < key.privateKey.d) (by decide) rfl (by decide) sealing.iv sealing.iv2
    fun record _ => packages.json record
  refine ⟨⟨utf8 "/keystore", 4096, 6, [(path, text)], [⟨address, path⟩], []⟩, ?_, ?_⟩
  · rw [KeyStore.newStoremanAccount, made, Outcome.ok_bind, encodes, Outcome.ok_bind, encrypted]
    rfl
  · have sole : KeyStore.candidates [⟨address, path⟩] address = [⟨address, path⟩] := by
      simp [KeyStore.candidates, KeyStore.Matches]
    simp only [KeyStore.find, KeyStore.findInCache_of_candidates sole, Outcome.ok_bind]
    rfl

theorem not_sharesAddress : ¬SharesAddress env key := by
  unfold SharesAddress
  decide +kernel

theorem reencryption_keeps_iff_updateStoreman : ∃ ks' account after,
    (directory "/keystore").newStoremanAccount env gpk 1 [5, 6] (utf8 "old") KeyFileSample.draw =
        .ok ks' ∧
      ks'.updateStoreman env address (utf8 "old") (utf8 "new") none KeyFileSample.draw =
        .ok (account, after) ∧ Keeps env after account (utf8 "new") gpk key := by
  obtain ⟨ks', isWritten, found⟩ := written
  have sealed : Reencryption.Sealed env ks' (.updateStoreman (utf8 "new") KeyFileSample.draw) :=
    ⟨⟨laws _ _ _, rfl, rfl⟩, rfl⟩
  obtain ⟨account, after, ran, keeps⟩ := (reencryption_keeps_iff Reference.ecmult env packages
    (directory "/keystore") ks' ks' gpk gpk_onCurve 1 [5, 6] (utf8 "old") encoded
    KeyFileSample.draw (seals _ _) key made isWritten encodes none found _ sealed).mpr
    ⟨by decide, .inl rfl⟩
  exact ⟨ks', account, after, isWritten, ran, keeps⟩

/-- After `Update` and after `Export` and `Import` the file is recorded under another address. -/
theorem update_and_import_lose_address : ∃ ks' account after imported moved,
    (directory "/keystore").newStoremanAccount env gpk 1 [5, 6] (utf8 "old") KeyFileSample.draw =
        .ok ks' ∧
      ks'.update env address (utf8 "old") (utf8 "new") none KeyFileSample.draw =
        .ok (account, after) ∧ ¬Keeps env after account (utf8 "new") gpk key ∧
      Reencryption.run env ks' address (utf8 "old") none (.exportImport (utf8 "export") (utf8 "new")
        KeyFileSample.draw KeyFileSample.draw (directory "/other")) = .ok (imported, moved) ∧
      ¬Keeps env moved imported (utf8 "new") gpk key := by
  obtain ⟨ks', isWritten, found⟩ := written
  obtain ⟨encoded', encodes', -, -, -, file⟩ := storemanFile_of_newStoremanAccount packages
    gpk_onCurve (seals "/keystore" (utf8 "old")) made isWritten
  cases encodes.symm.trans encodes'
  have sealing (auth : Bytes) : Seals env ks' auth KeyFileSample.draw := ⟨laws _ _ _, rfl, rfl⟩
  obtain ⟨account, after, ran, updated⟩ := update_keeps_iff file found (by decide) (by decide)
    packages (sealing (utf8 "new")) rfl
  obtain ⟨imported, moved, ran', moves⟩ := exportImport_keeps_iff file found (by decide) (by decide)
    packages (sealing (utf8 "export")) (seals "/other" (utf8 "new")) rfl
  exact ⟨ks', account, after, imported, moved, isWritten, ran,
    fun keeps => not_sharesAddress (updated.mp keeps), ran',
    fun keeps => not_sharesAddress (moves.mp keeps)⟩

end ReencryptSample
end SchnorrMpc
