import SchnorrMpc.Keystore.RoundTrip
import SchnorrMpc.Keystore.Index

/-!
# A share in its key file

`CreateKeystore` writes the share of a new group key and `loadStoremanAddress`
reads it back. The seeds go to a field of fixed length, so the table of the
group comes back only when it fits.
-/
namespace SchnorrMpc

open Lib

variable {seeds : List Nat} {path text encoded : Bytes} {kenv : KeyEnv} {ks : KeyStore}
  {later : MpcDistributor} {reload : Option (List Bytes)}

/-- The table of a group: every member with its seed. -/
abbrev groupTable (group : List NodeID) (seeds : List Nat) : List PeerInfo :=
  List.zipWith PeerInfo.mk group seeds

theorem map_seed_groupTable {group : List NodeID} (sameLength : seeds.length = group.length) :
    (groupTable group seeds).map PeerInfo.seed = seeds := by
  refine List.ext_getElem (by simp [sameLength]) fun i _ _ => ?_
  simp

/-- A share of a group key, dealt to the whole group at distinct points. -/
structure DealtShare (srv : MpcDistributor) (store : BaseMpcResult) (seeds : List Nat)
    (gpk : Int × Int) (d : Int) : Prop where
  sameLength : seeds.length = srv.storeManGroup.length
  distinct : seeds.Nodup
  range : ∀ seed ∈ seeds, 1 ≤ seed ∧ seed < 2 ^ 24
  onCurve : OnCurve gpk
  positive : 0 < d
  below : d < S256.N
  publicKey : store.getValue .publicKeyResult = .ok [gpk.1, gpk.2]
  share : store.getValue .mpcPrivateShare = .ok [d]

/-- No other key file or account answers for the address, and the name of the file is new. -/
structure FreshAddress (kenv : KeyEnv) (srv : MpcDistributor) (address : Address) (path : Bytes) :
    Prop where
  unloaded : srv.mpcAccountMap.lookup address = none
  unindexed : KeyStore.candidates srv.keyStore.all address = []
  newFile : path ∉ srv.keyStore.files.map Prod.fst
  unseen : path ∉ srv.keyStore.seen
  others : ∀ other ∈ srv.keyStore.files.map Prod.fst, ∃ found,
    srv.keyStore.readAccount kenv other = .ok found ∧
      ∀ account ∈ found, ¬KeyStore.Matches address account

/-- The packages, the file system and the directory that the key file of this share meets. -/
structure KeyFileSetting (ecmult : Ecmult)
    (kenv : KeyEnv) (srv : MpcDistributor) (seeds : List Nat) (gpk : Int × Int) (d : Int)
    (draw : KeyStore.KeyDraw) : Prop where
  curve : kenv.curve = BitCurve.curve ecmult
  noKms : srv.enableAwsKms = false
  laws : CipherLaws kenv srv.password srv.keyStore.scryptN srv.keyStore.scryptP
  iv : draw.entropy.iv.length = 16
  iv2 : draw.entropy2.iv.length = 16
  json : ∀ key record, newMpcKey kenv.toEnv draw.id gpk d seeds = .ok key →
    keyRecord kenv key srv.password srv.keyStore.scryptN srv.keyStore.scryptP draw.entropy
      draw.entropy2 = .ok record → JsonRoundTrips kenv record
  written : draw.write = .ok ()
  fresh : ∀ address encoded, pubkeyToAddress kenv.toEnv (some gpk) = .ok address →
    fromECDSAPub (some gpk) = .ok encoded →
    FreshAddress kenv srv address (srv.keyStore.keyPath draw.timestamp encoded)

/-- The node later, with the same group, password and files: still running, or started again,
when the first search scans the directory. -/
structure Reopens (after later : MpcDistributor) (address : Address)
    (reload : Option (List Bytes)) : Prop where
  group : later.storeManGroup = after.storeManGroup
  password : later.password = after.password
  noKms : later.enableAwsKms = false
  unloaded : later.mpcAccountMap.lookup address = none
  files : later.keyStore.files = after.keyStore.files
  index : later.keyStore.all = after.keyStore.all ∧ later.keyStore.seen = after.keyStore.seen ∨
    later.keyStore.all = [] ∧ later.keyStore.seen = [] ∧ address ≠ zeroAddress ∧ reload ≠ none

/-- The key file is written, and every later load gives the share, the key and the table back. -/
def RoundTrips (kenv : KeyEnv) (srv : MpcDistributor) (store : BaseMpcResult) (seeds : List Nat)
    (gpk : Int × Int) (d : Int) (draw : KeyStore.KeyDraw) : Prop :=
  ∃ result after address,
    srv.createKeystore kenv store (groupTable srv.storeManGroup seeds) draw = .ok (result, after) ∧
    pubkeyToAddress kenv.toEnv (some gpk) = .ok address ∧
    ∀ later reload, Reopens after later address reload → ∃ opened,
      later.loadStoremanAddress kenv address reload =
        .ok (⟨d, gpk, groupTable srv.storeManGroup seeds⟩, opened)

/-! ### The new file in its directory -/

theorem readAccount_of_digits (kenv : KeyEnv) (ks : KeyStore) {digits : Bytes}
    (suffix : digits <:+ path) (long : 7 ≤ digits.length)
    (isDigit : ∀ char ∈ digits, hexValue char ≠ none) :
    ks.readAccount kenv path = .ok (ks.readPlainAccount kenv path) := by
  have ext : KeyStore.cipherExt.length = 7 := by decide
  have length := suffix.length_le
  have noCipher : path.drop (path.length - KeyStore.cipherExt.length) ≠ KeyStore.cipherExt := by
    intro ends
    have cipherSuffix : KeyStore.cipherExt <:+ path := by
      rw [← ends]
      exact List.drop_suffix _ _
    have inDigits := List.suffix_of_suffix_length_le cipherSuffix suffix (by omega)
    exact isDigit 114 (inDigits.subset (by decide)) (by decide)
  rw [KeyStore.readAccount, if_neg (by omega), if_neg noCipher]

theorem readPlainAccount_eq {recorded : Bytes} {address : Address}
    (stored : ks.files.lookup path = some text)
    (unmarshalled : kenv.unmarshalAddress text = some recorded)
    (isAddress : KeyStore.hexToAddress recorded = address) :
    ks.readPlainAccount kenv path =
      if address = zeroAddress then none else some ⟨address, path⟩ := by
  simp only [KeyStore.readPlainAccount, stored, unmarshalled, isAddress]

theorem hexValue_of_mem_hexEncode {bytes : Bytes} {char : UInt8} (member : char ∈ hexEncode bytes) :
    hexValue char ≠ none := by
  obtain ⟨n, digit, rfl⟩ := mem_hexEncode member
  simp [hexValue_hexDigit n digit]

/-- The new file is read as one of its address. -/
theorem readAccount_keyPath {base : KeyStore} {timestamp : Bytes} {address : Address}
    (length : encoded.length = 65) (addressLength : address.length = 20)
    (stored : ks.files.lookup (base.keyPath timestamp encoded) = some text)
    (unmarshalled : kenv.unmarshalAddress text = some (addressHex kenv.toEnv address)) :
    ks.readAccount kenv (base.keyPath timestamp encoded) =
      .ok (if address = zeroAddress then none
        else some ⟨address, base.keyPath timestamp encoded⟩) := by
  have hexSuffix : hexEncode encoded <:+ base.keyPath timestamp encoded := by
    simp only [KeyStore.keyPath, ← List.append_assoc]
    exact List.suffix_append _ _
  have long := length_hexEncode encoded
  rw [readAccount_of_digits kenv ks hexSuffix (by omega) fun _ => hexValue_of_mem_hexEncode,
    readPlainAccount_eq stored unmarshalled (hexToAddress_addressHex kenv.toEnv addressLength)]

theorem readAccount_congr {other : KeyStore}
    (same : ks.files.lookup path = other.files.lookup path) :
      ks.readAccount kenv path = other.readAccount kenv path := by
  simp only [KeyStore.readAccount, KeyStore.readPlainAccount, same]

section Stored

variable {ecmult : Ecmult} {kenv : KeyEnv}
variable {srv : MpcDistributor} {store : BaseMpcResult} {seeds : List Nat} {gpk : Int × Int}
    {d : Int}
variable {draw : KeyStore.KeyDraw}

def withKeyFile (srv : MpcDistributor) (address : Address) (path text : Bytes) : MpcDistributor :=
  { srv with keyStore := { srv.keyStore with
      files := Assoc.assign srv.keyStore.files path text
      all := KeyStore.add srv.keyStore.all ⟨address, path⟩ } }

theorem FreshAddress.soleFile {address : Address}
    (fresh : FreshAddress kenv srv address (srv.keyStore.keyPath draw.timestamp encoded))
    (length : encoded.length = 65) (addressLength : address.length = 20)
    (unmarshalled : kenv.unmarshalAddress text = some (addressHex kenv.toEnv address))
    (reopens : Reopens (withKeyFile srv address (srv.keyStore.keyPath draw.timestamp encoded) text)
      later address reload) :
    KeyStore.SoleFile kenv later.keyStore address
      (srv.keyStore.keyPath draw.timestamp encoded) := by
  have files : later.keyStore.files =
      Assoc.assign srv.keyStore.files (srv.keyStore.keyPath draw.timestamp encoded) text :=
    reopens.files
  constructor
  · simp [files, Assoc.assign]
  · rcases reopens.index with ⟨-, seen⟩ | ⟨-, seen, -⟩
    · rw [seen]
      exact fresh.unseen
    · rw [seen]
      exact List.not_mem_nil
  · intro other listed differs
    have old : other ∈ srv.keyStore.files.map Prod.fst := by
      rw [files, Assoc.assign, List.map_append, List.mem_append] at listed
      rcases listed with kept | added
      · obtain ⟨entry, member, rfl⟩ := List.mem_map.mp kept
        exact List.mem_map_of_mem (List.mem_of_mem_filter member)
      · exact absurd (by simpa using added) differs
    obtain ⟨found, read, apart⟩ := fresh.others other old
    refine ⟨found, ?_, apart⟩
    rw [← read]
    apply readAccount_congr
    rw [files, Assoc.lookup_assign, if_neg differs]
  · refine readAccount_keyPath length addressLength ?_ unmarshalled
    rw [files, Assoc.lookup_assign, if_pos rfl]

/-- A reopened node finds the account of the new file. -/
theorem FreshAddress.find {address : Address}
    (fresh : FreshAddress kenv srv address (srv.keyStore.keyPath draw.timestamp encoded))
    (length : encoded.length = 65) (addressLength : address.length = 20)
    (unmarshalled : kenv.unmarshalAddress text = some (addressHex kenv.toEnv address))
    (reopens : Reopens (withKeyFile srv address (srv.keyStore.keyPath draw.timestamp encoded) text)
      later address reload) :
    ∃ keyStore, later.keyStore.find kenv address reload =
        .ok (⟨address, srv.keyStore.keyPath draw.timestamp encoded⟩, keyStore) ∧
      keyStore.files.lookup (srv.keyStore.keyPath draw.timestamp encoded) = some text := by
  have file := fresh.soleFile length addressLength unmarshalled reopens
  have start : KeyStore.candidates later.keyStore.all address =
        [⟨address, srv.keyStore.keyPath draw.timestamp encoded⟩] ∨
      KeyStore.candidates later.keyStore.all address = [] ∧ address ≠ zeroAddress ∧
        reload ≠ none := by
    rcases reopens.index with ⟨all, -⟩ | ⟨all, -, nonzero, scanned⟩
    · left
      rw [all]
      exact KeyStore.candidates_add_new fresh.unindexed (Or.inr rfl)
    · right
      rw [all]
      exact ⟨rfl, nonzero, scanned⟩
  obtain ⟨keyStore, found, files⟩ := KeyStore.find_sole file reload start
  refine ⟨keyStore, found, ?_⟩
  rw [files, reopens.files]
  exact (Assoc.lookup_assign _ _ _ _).trans (if_pos rfl)

theorem createKeystore_eq (kenv : KeyEnv) (draw : KeyStore.KeyDraw)
    (dealt : DealtShare srv store seeds gpk d) :
    srv.createKeystore kenv store (groupTable srv.storeManGroup seeds) draw =
      (do
        let keyStore ← srv.keyStore.newStoremanAccount kenv gpk d seeds srv.password draw
        let encoded ← fromECDSAPub (some gpk)
        pure (store.setByteValue .mpcContextResult encoded, { srv with keyStore })) := by
  have xAbs : ((gpk.1.natAbs : Nat) : Int) = gpk.1 := Int.natAbs_of_nonneg dealt.onCurve.x_nonneg
  have yAbs : ((gpk.2.natAbs : Nat) : Int) = gpk.2 := Int.natAbs_of_nonneg dealt.onCurve.y_nonneg
  have second : (Outcome.index [gpk.1, gpk.2] 1 : Go Int) = .ok gpk.2 := rfl
  simp only [MpcDistributor.createKeystore, dealt.publicKey, dealt.share, Outcome.ok_bind,
    Outcome.index_cons_zero, second, xAbs, yAbs, map_seed_groupTable dealt.sameLength]

section

variable (dealt : DealtShare srv store seeds gpk d)
  (setting : KeyFileSetting ecmult kenv srv seeds gpk d draw)

include dealt setting

/-- Writing the key file and loading it again: the table that comes back is what the field of the
seeds holds. -/
theorem stored_loads {wAddress : Bytes} (packed : packSeeds seeds = .ok wAddress)
    (field : wAddress.length = wAddressLength) {peers : List PeerInfo}
    (unpacked : MpcDistributor.unpackSeeds wAddress srv.storeManGroup 0 (List.replicate 8 0) =
      .ok peers) :
    ∃ result after address,
      srv.createKeystore kenv store (groupTable srv.storeManGroup seeds) draw =
        .ok (result, after) ∧
      pubkeyToAddress kenv.toEnv (some gpk) = .ok address ∧
      Reopens after after address none ∧
      ∀ later reload, Reopens after later address reload → ∃ opened,
        later.loadStoremanAddress kenv address reload = .ok (⟨d, gpk, peers⟩, opened) := by
  obtain ⟨encoded, encodes, length, decodes⟩ := toECDSAPub_fromECDSAPub dealt.onCurve
  obtain ⟨address, toAddress, addressLength⟩ : ∃ address,
      pubkeyToAddress kenv.toEnv (some gpk) = .ok address ∧ address.length = 20 := by
    refine ⟨_, by rw [pubkeyToAddress, encodes, Outcome.ok_bind, if_neg (by omega)], ?_⟩
    rw [List.length_drop, (kenv.keccak256 _).property]
  have xAbs : ((gpk.1.natAbs : Nat) : Int) = gpk.1 := Int.natAbs_of_nonneg dealt.onCurve.x_nonneg
  have yAbs : ((gpk.2.natAbs : Nat) : Int) = gpk.2 := Int.natAbs_of_nonneg dealt.onCurve.y_nonneg
  -- NewMpcKey makes both halves of the share
  have made : newMpcKey kenv.toEnv draw.id gpk d seeds =
      .ok ⟨draw.id, address, ⟨d, some gpk⟩, ⟨d, some gpk⟩, wAddress, hexEncode encoded⟩ := by
    simp only [newMpcKey, encodes, toAddress, packed, xAbs, yAbs, Outcome.ok_bind, Outcome.pure_eq]
  -- what the cipher wrote, it opens
  obtain ⟨text, encrypted, unmarshalled, read, decrypted, shareRead, fieldRead, extenRead⟩ :=
    decryptKey_encryptKey setting.curve setting.laws dealt.positive dealt.below rfl field setting.iv
      setting.iv2 (setting.json _ · made)
  have fresh := setting.fresh address encoded toAddress encodes
  refine ⟨store.setByteValue .mpcContextResult encoded,
    withKeyFile srv address (srv.keyStore.keyPath draw.timestamp encoded) text, address, ?_,
      toAddress,
    ?_, ?_⟩
  · simp only [createKeystore_eq kenv draw dealt, KeyStore.newStoremanAccount, made, encodes,
      encrypted, setting.written, Outcome.ok_bind, Outcome.pure_eq]
    rfl
  · exact ⟨rfl, rfl, setting.noKms, fresh.unloaded, rfl, .inl ⟨rfl, rfl⟩⟩
  -- the file is the only one of its address, so a later node finds it
  · intro later reload reopens
    obtain ⟨keyStore, found, stored⟩ :=
      fresh.find length addressLength unmarshalled reopens
    have share : later.getPrivateShare kenv address reload = .ok (read, keyStore) := by
      have password : later.password = srv.password := reopens.password
      simp only [MpcDistributor.getPrivateShare, found, stored, reopens.noKms, password, decrypted,
        Outcome.ok_bind, Outcome.pure_eq, Bool.false_eq_true, if_false]
    have group : later.storeManGroup = srv.storeManGroup := reopens.group
    simp only [MpcDistributor.loadStoremanAddress, MpcDistributor.loadAccount, reopens.unloaded,
      share, group, unpacked, shareRead, fieldRead, extenRead, hexDecodeString_hexEncode, decodes,
      Outcome.ok_bind, Outcome.pure_eq]
    exact ⟨_, rfl⟩

/-- A group with one member too many: the last member comes back with another's seed. -/
theorem not_roundTrips_of_one_more (oneMore : srv.storeManGroup.length = maxSeeds + 1) :
    ¬RoundTrips kenv srv store seeds gpk d draw := by
  rintro ⟨result, after, address, created, toAddress, loads⟩
  have sameLength := dealt.sameLength
  have distinct := dealt.distinct
  obtain empty | ⟨group, last, groupEq⟩ := List.eq_nil_or_concat' srv.storeManGroup
  · simp [empty] at oneMore
  obtain empty | ⟨front, seed, seedsEq⟩ := List.eq_nil_or_concat' seeds
  · simp [empty, oneMore] at sameLength
  rw [seedsEq] at distinct
  simp only [groupEq, seedsEq, List.length_append, List.length_singleton] at oneMore sameLength
  have full : front.length = maxSeeds := by omega
  have frontLength : front.length = group.length := by omega
  have small : ∀ other ∈ front, other < 2 ^ 24 := fun other member =>
    (dealt.range other (by simp [seedsEq, member])).2
  have field : (seedBytes front).length = wAddressLength := by
    rw [length_seedBytes, full]
    decide
  have packed : packSeeds seeds = .ok (seedBytes front) := by
    rw [seedsEq]
    exact packSeeds_append_one full seed
  have unpacked := unpackSeeds_past_end last frontLength small
  rw [← groupEq] at unpacked
  obtain ⟨result', after', address', created', toAddress', reopens, stale⟩ :=
    stored_loads dealt setting packed field unpacked
  cases created.symm.trans created'
  cases toAddress.symm.trans toAddress'
  -- The node that has just written the file loads two tables.
  obtain ⟨opened, loaded⟩ := loads after none reopens
  obtain ⟨opened', loaded'⟩ := stale after none reopens
  have tables := loaded.symm.trans loaded'
  simp only [Outcome.ok.injEq, Prod.mk.injEq, MpcDistributor.Loaded.mk.injEq, true_and] at tables
  have lasts := tables.1
  rw [groupTable, groupEq, seedsEq, List.zipWith_append frontLength.symm,
    List.append_cancel_left_eq]
    at lasts
  have stuck : seed = (0 :: front).getLast (by simp) := by simpa using lasts
  have nonempty : front ≠ [] := by
    rintro rfl
    exact absurd full (by decide)
  rw [List.getLast_cons nonempty] at stuck
  rw [List.nodup_append] at distinct
  exact distinct.2.2 seed (stuck ▸ List.getLast_mem nonempty) seed (by simp) rfl

end

theorem createKeystore_panic (kenv : KeyEnv) (draw : KeyStore.KeyDraw)
    (dealt : DealtShare srv store seeds gpk d) (many : maxSeeds + 1 < srv.storeManGroup.length) :
    srv.createKeystore kenv store (groupTable srv.storeManGroup seeds) draw = .panic := by
  obtain ⟨encoded, encodes, length, -⟩ := toECDSAPub_fromECDSAPub dealt.onCurve
  have panics : packSeeds seeds = .panic := packSeeds_panic (by rw [dealt.sameLength]; exact many)
  have toAddress : ∃ address, pubkeyToAddress kenv.toEnv (some gpk) = .ok address :=
    ⟨_, by rw [pubkeyToAddress, encodes, Outcome.ok_bind, if_neg (by omega)]⟩
  obtain ⟨address, toAddress⟩ := toAddress
  simp only [createKeystore_eq kenv draw dealt, KeyStore.newStoremanAccount, newMpcKey, encodes,
    toAddress, panics, Outcome.ok_bind, Outcome.panic_bind]

end Stored

/-- Storing and loading a share loses nothing exactly when the seeds of the group fit in their
field of 66 bytes. -/
theorem keyFile_roundTrips_iff
    (ecmult : Ecmult) (kenv : KeyEnv)
    (srv : MpcDistributor) (store : BaseMpcResult) (seeds : List Nat) (gpk : Int × Int) (d : Int)
    (draw : KeyStore.KeyDraw) (dealt : DealtShare srv store seeds gpk d)
    (setting : KeyFileSetting ecmult kenv srv seeds gpk d draw) :
    RoundTrips kenv srv store seeds gpk d draw ↔ srv.storeManGroup.length ≤ 22 := by
  constructor
  · intro roundTrips
    by_contra large
    rcases Nat.lt_or_ge 23 srv.storeManGroup.length with many | few
    · obtain ⟨_, _, _, created, -⟩ := roundTrips
      rw [createKeystore_panic kenv draw dealt many] at created
      cases created
    · exact not_roundTrips_of_one_more dealt setting (show _ = 23 by omega) roundTrips
  · intro fits
    have room : seeds.length ≤ maxSeeds := dealt.sameLength.trans_le fits
    have small : ∀ seed ∈ seeds, seed < 2 ^ 24 := fun seed member => (dealt.range seed member).2
    have field : (seedBytes seeds ++ List.replicate (wAddressLength - 3 * seeds.length) 0).length =
        wAddressLength := by
      have bound : maxSeeds * 3 = wAddressLength := by decide
      simp only [List.length_append, length_seedBytes, List.length_replicate]
      omega
    obtain ⟨result, after, address, created, toAddress, -, loads⟩ := stored_loads dealt setting
      (packSeeds_of_fits room) field (unpackSeeds_of_fits _ dealt.sameLength small)
    exact ⟨result, after, address, created, toAddress, loads⟩

/-! ### Two groups -/

namespace KeyFileSample

def xorStream : (text stream : Bytes) → Bytes
  | [], _ => []
  | text, [] => text
  | byte :: text, key :: stream => (byte ^^^ key) :: xorStream text stream

theorem xorStream_twice (text stream : Bytes) : xorStream (xorStream text stream) stream =
    text := by
  induction text generalizing stream with
  | nil => rfl
  | cons byte text ih =>
    cases stream with
    | nil => rfl
    | cons key stream =>
      rw [xorStream, xorStream, ih, UInt8.xor_assoc, UInt8.xor_self, UInt8.xor_zero]

/-- The base point, which is the group key here, and its address. -/
def gpk : Int × Int := (S256.Gx, S256.Gy)

def address : Address := bePad 20 0x7e5f4552091a69125d5dfcb7b8c2659029395bdf

def cipherText : Bytes :=
  bePad 32 0x608c57fbe17c186543d9123e996b7be527a1c2bc4facee85248f4a1568db49b7

def cipherText2 : Bytes :=
  bePad 32 0x0d8722d87ca8d03e75c2967d2500c9ef21413e3d30785fac178efabf71e1e607

def derivedKey : Bytes :=
  bePad 32 0x0cf795964008f5a1977a016e053d1d2e97b3466b2fd594a9848bd975c111f47c

def derivedKey2 : Bytes :=
  bePad 32 0xe925d79dec2d39630ba8366aae105d5c4baef29b5cd025f9b63e459c4901cdb9

def item (cipherText iv salt : Bytes) (mac : Nat) : CryptoJSON where
  cipher := utf8 "aes-128-ctr"
  cipherText := hexEncode cipherText
  iv := hexEncode iv
  kdf := utf8 "scrypt"
  n := some 4096
  r := some 8
  p := some 6
  dklen := some 32
  salt := some (hexEncode salt)
  mac := hexEncode (bePad 32 mac)

def record : EncryptedKeyJSONV3 where
  address := utf8 "7e5f4552091a69125D5dFcB7B8c2659029395bDF"
  crypto := item cipherText (List.replicate 16 3) (List.replicate 32 1)
    0x6ada8992430de67fcd489e60eefcffe6facac45cfaebc8833d39741cdb0d906d
  crypto2 := item cipherText2 (List.replicate 16 4) (List.replicate 32 2)
    0x7fd271be7154acc7063ebbba6348dc7633b218ee8c8b59179bb669563916c629
  id := utf8 "3198bc9c-6672-5ab3-d995-4942343ae5b6"
  version := 3
  waddress := hexEncode ([0, 0, 5, 0, 0, 6] ++ List.replicate 60 0)
  exten := hexEncode (4 :: (bePad 32 S256.Gx ++ bePad 32 S256.Gy))

def jsonItem (item : CryptoJSON) : Bytes :=
  utf8 "\x7b\"cipher\":\"" ++ item.cipher ++ utf8 "\",\"ciphertext\":\"" ++ item.cipherText
    ++ utf8 "\",\"cipherparams\":\x7b\"iv\":\"" ++ item.iv ++ utf8 "\"\x7d,\"kdf\":\"" ++ item.kdf
    ++ utf8 "\",\"kdfparams\":\x7b\"dklen\":32,\"n\":4096,\"p\":6,\"r\":8,\"salt\":\""
    ++ item.salt.getD [] ++ utf8 "\"\x7d,\"mac\":\"" ++ item.mac ++ utf8 "\"\x7d"

def jsonRecord (record : EncryptedKeyJSONV3) : Bytes :=
  utf8 "\x7b\"address\":\"" ++ record.address ++ utf8 "\",\"crypto\":" ++ jsonItem record.crypto
    ++ utf8 ",\"crypto2\":" ++ jsonItem record.crypto2 ++ utf8 ",\"id\":\"" ++ record.id
    ++ utf8 "\",\"version\":3,\"waddress\":\"" ++ record.waddress ++ utf8 "\",\"exten\":\""
    ++ record.exten ++ utf8 "\"\x7d"

def env : KeyEnv where
  curve := BitCurve.curve (fun x y _ => (x, y))
  sha256 _ := word 0
  keccak256 bytes :=
    if bytes = bePad 32 S256.Gx ++ bePad 32 S256.Gy then
      word 0xc0a6c424ac7157ae408398df7e5f4552091a69125d5dfcb7b8c2659029395bdf
    else if bytes = derivedKey.drop 16 ++ cipherText then
      word 0x6ada8992430de67fcd489e60eefcffe6facac45cfaebc8833d39741cdb0d906d
    else if bytes = derivedKey2.drop 16 ++ cipherText2 then
      word 0x7fd271be7154acc7063ebbba6348dc7633b218ee8c8b59179bb669563916c629
    else word 0xa8aaec6aceafa450816b295770adcd144ce18d630d6ce74288aa4f1569eda4ca
  scrypt _ salt _ _ _ _ := .ok (if salt = List.replicate 32 1 then derivedKey else derivedKey2)
  pbkdf2 _ _ := .panic
  aesCTRXOR key text _ := .ok (xorStream text
    (if key = derivedKey.take 16 then
      bePad 32 0x608c57fbe17c186543d9123e996b7be527a1c2bc4facee85248f4a1568db49b6
    else bePad 32 0x0d8722d87ca8d03e75c2967d2500c9ef21413e3d30785fac178efabf71e1e606))
  marshalKey record := .ok (jsonRecord record)
  unmarshalKey text := if text = jsonRecord record then .ok record else .err (.new [])
  keyVersion _ := .ok none
  unmarshalAddress text := if text = jsonRecord record then some record.address else none
  decryptKeyV1 _ _ := .panic
  decryptFileToBuffer _ := .panic

def server (size : Nat) : MpcDistributor where
  self := 1
  storeManGroup := (List.range' 1 size).map (BitVec.ofNat 512)
  storeManIndex := []
  mpcMap := []
  keyStore := ⟨utf8 "/keystore", 4096, 6, [], [], []⟩
  mpcAccountMap := []
  enableAwsKms := false
  password := utf8 "secret"

def store : BaseMpcResult :=
  (BaseMpcResult.create.setValue .publicKeyResult [gpk.1, gpk.2]).setValue .mpcPrivateShare [1]

def draw : KeyStore.KeyDraw where
  id := utf8 "3198bc9c-6672-5ab3-d995-4942343ae5b6"
  entropy := ⟨List.replicate 32 1, List.replicate 16 3⟩
  entropy2 := ⟨List.replicate 32 2, List.replicate 16 4⟩
  timestamp := utf8 "2020-05-06T07-08-09.000000001Z"
  write := .ok ()

theorem env_laws : CipherLaws env (utf8 "secret") 4096 6 := by
  constructor
  · intro salt
    refine ⟨_, rfl, ?_⟩
    split
    · rfl
    · rfl
  · intro key text iv _ _
    exact ⟨_, rfl, congrArg Outcome.ok (xorStream_twice _ _)⟩

theorem fresh (size : Nat) (path : Bytes) : FreshAddress env (server size) address path where
  unloaded := rfl
  unindexed := rfl
  newFile := List.not_mem_nil
  unseen := List.not_mem_nil
  others _ listed := absurd listed List.not_mem_nil

private theorem pubkeyToAddress_gpk : pubkeyToAddress env.toEnv (some gpk) = .ok address := by
  decide +kernel

theorem setting {size : Nat}
    (json : ∀ key, newMpcKey env.toEnv draw.id gpk 1 seeds = .ok key →
      keyRecord env key (utf8 "secret") 4096 6 draw.entropy draw.entropy2 = .ok record) :
    KeyFileSetting (fun x y _ => (x, y)) env (server size) seeds gpk 1 draw where
  curve := rfl
  noKms := rfl
  laws := env_laws
  iv := rfl
  iv2 := rfl
  json key made newKey written := by
    cases (json key newKey).symm.trans written
    exact ⟨jsonRecord record, rfl, rfl, by simp [env], by simp [env]⟩
  written := rfl
  fresh other _ toAddress _ := by
    cases pubkeyToAddress_gpk.symm.trans toAddress
    exact fresh size _

theorem gpk_onCurve : OnCurve gpk := by
  constructor <;> decide +kernel

/-- The table of a group of two comes back. -/
theorem keyFile_roundTrips_iff_twoMembers :
    RoundTrips env (server 2) store [5, 6] gpk 1 draw := by
  refine (keyFile_roundTrips_iff (fun x y _ => (x, y)) env (server 2) store [5, 6] gpk 1 draw
    ⟨rfl, by decide, by decide, gpk_onCurve, by decide, by decide, rfl, rfl⟩ (setting ?_)).mpr
    (by decide)
  intro key made
  have sample : newMpcKey env.toEnv draw.id gpk 1 [5, 6] = .ok ⟨draw.id, address, ⟨1, some gpk⟩,
      ⟨1, some gpk⟩, [0, 0, 5, 0, 0, 6] ++ List.replicate 60 0,
      hexEncode (4 :: (bePad 32 S256.Gx ++ bePad 32 S256.Gy))⟩ := by
    decide +kernel
  cases sample.symm.trans made
  decide +kernel

/-- A group of the default size does not get a key file. -/
theorem defaultGroup_no_keyFile :
    DealtShare (server 50) store (List.range' 1 50) gpk 1 ∧
      KeyFileSetting (fun x y _ => (x, y)) env (server 50) (List.range' 1 50) gpk 1 draw ∧
      (server 50).createKeystore env store (groupTable (server 50).storeManGroup (List.range' 1 50))
        draw = .panic ∧
      ¬RoundTrips env (server 50) store (List.range' 1 50) gpk 1 draw := by
  have dealt : DealtShare (server 50) store (List.range' 1 50) gpk 1 :=
    ⟨rfl, by decide, by decide, gpk_onCurve, by decide, by decide, rfl, rfl⟩
  have panics := createKeystore_panic env draw dealt (by decide)
  refine ⟨dealt, setting ?_, panics, ?_⟩
  · intro key made
    simp only [newMpcKey, Outcome.bind_eq_ok_iff] at made
    obtain ⟨_, _, _, _, wAddress, packed, -⟩ := made
    rw [packSeeds_panic (by decide)] at packed
    cases packed
  · rintro ⟨_, _, _, created, -⟩
    rw [panics] at created
    cases created

end KeyFileSample

end SchnorrMpc
