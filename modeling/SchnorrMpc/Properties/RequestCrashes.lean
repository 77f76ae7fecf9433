import SchnorrMpc.Properties.CipherFiles
import SchnorrMpc.Properties.Requests

/-!
# Requests that end a node

A request is answered in a goroutine of its own, so a panic on the way ends the
process. Which requests can be answered at all, whatever is in the key store
and in the approval database.
-/
namespace SchnorrMpc

open Lib DbM Prog

/-! ### The approval functions do not panic -/

/-- However the database answers, the call returns. -/
abbrev Quiet {α : Type} (p : DbM α) : Prop := p.Ends (· ≠ .panic)

section Quiet

variable {α β : Type}

theorem quiet_bind {p : DbM α} {f : α → DbM β} (first : Quiet p) (second : ∀ v, Quiet (f v)) :
    Quiet (p >>= f) :=
  first.bind (fun v _ => second v) (fun _ _ => by simp) (fun panic => absurd rfl panic)

theorem quiet_attempt {p : DbM α} (quiet : Quiet p) : Quiet p.attempt :=
  quiet.attempt (fun _ _ => by simp) (fun _ _ => by simp) (fun panic => absurd rfl panic)

theorem attempt_returns {p : DbM α} (quiet : Quiet p) :
    p.attempt.Ends (fun result => ∃ value, result = .ok value) :=
  quiet.attempt (fun v _ => ⟨.ok v, rfl⟩) (fun e _ => ⟨.error e, rfl⟩)
    (fun panic => absurd rfl panic)

theorem quiet_unwrap (answer : Except Err α) : Quiet (unwrap answer) := by
  cases answer <;> simp [Quiet]

theorem quiet_ok (value : α) : Quiet (.done (.ok value) : DbM α) := by simp [Quiet]

theorem quiet_err (error : Err) : Quiet (.done (.err error) : DbM α) := by simp [Quiet]

theorem quiet_ite {c : Prop} [Decidable c] {p q : DbM α} (yes : Quiet p) (no : Quiet q) :
    Quiet (if c then p else q) := by
  split
  · exact yes
  · exact no

theorem quiet_addKeyValueToDB (key value : Bytes) : Quiet (addKeyValueToDB key value) := by
  unfold addKeyValueToDB
  simp only [getDB_bind, put_bind, get_bind]
  refine fun answer => quiet_bind (quiet_unwrap _) fun _ => ?_
  refine fun answer => quiet_bind (quiet_unwrap _) fun _ => ?_
  exact fun answer => quiet_bind (quiet_unwrap _) fun _ => quiet_ok _

theorem quiet_readApprovingKeys (venv : ValEnv) (answer : Except Err Bytes) :
    Quiet (readApprovingKeys venv answer) := by
  unfold readApprovingKeys
  cases answer with
  | ok ret => exact quiet_ite (quiet_unwrap _) (quiet_ok _)
  | error error => exact quiet_ite (quiet_err _) (quiet_ok _)

theorem quiet_addApprovingData (venv : ValEnv)
    (d : SendData) : Quiet (addApprovingData venv d) := by
  unfold addApprovingData
  simp only [getDB_bind, has_bind, get_bind]
  refine fun answer => quiet_bind (quiet_unwrap _) fun _ => ?_
  refine fun answer => quiet_bind (quiet_unwrap _) fun isExist => quiet_ite (quiet_ok _) ?_
  refine fun answer => quiet_bind (quiet_readApprovingKeys _ _) fun keys => ?_
  refine fun answer => quiet_bind (quiet_unwrap _) fun existApprovingDb => ?_
  refine quiet_ite (quiet_ok _) (quiet_ite (quiet_bind (quiet_addKeyValueToDB _ _) fun _ => ?_) ?_)
  · exact quiet_ite (quiet_addKeyValueToDB _ _) (quiet_ok _)
  · exact quiet_ite (quiet_addKeyValueToDB _ _) (quiet_ok _)

theorem quiet_waitKeyFromDB (key : Bytes) (polls : Nat) : Quiet (waitKeyFromDB key polls) := by
  induction polls with
  | zero =>
    simp only [waitKeyFromDB, has_bind]
    exact fun answer => quiet_bind (quiet_unwrap _) fun _ => quiet_ite (quiet_ok _) (quiet_err _)
  | succ polls ih =>
    simp only [waitKeyFromDB, has_bind]
    exact fun answer => quiet_bind (quiet_unwrap _) fun _ => quiet_ite (quiet_ok _) ih

theorem quiet_validateData (venv : ValEnv) (d : SendData) (polls : Nat) :
    Quiet (validateData venv d polls) := by
  unfold validateData
  simp only [dbInstance_bind]
  intro answer
  cases answer with
  | error error => exact quiet_err _
  | ok _ =>
    refine quiet_bind (quiet_attempt ?_) fun waited => ?_
    · simp only [getDB_bind]
      exact fun answer => quiet_bind (quiet_unwrap _) fun _ => quiet_waitKeyFromDB _ _
    · cases waited with
      | error error => exact quiet_err _
      | ok _ =>
        simp only [get_bind]
        intro answer
        cases answer with
        | error error => exact quiet_err _
        | ok value => exact quiet_ite (quiet_err _) (quiet_ok _)

end Quiet

/-! ### Loading an account -/

/-- Every member has a slice of the field, if only an empty one, or reading it panics. -/
theorem unpackSeeds_cases (wAddress : Bytes) (group : List NodeID) (i : Nat) (b : Bytes)
    (wide : b.length = 8) (started : i * 3 ≤ wAddress.length + 3) :
    ((i + group.length) * 3 ≤ wAddress.length + 3 ∧
        ∃ peers, MpcDistributor.unpackSeeds wAddress group i b = .ok peers) ∨
      (¬(i + group.length) * 3 ≤ wAddress.length + 3 ∧
        MpcDistributor.unpackSeeds wAddress group i b = .panic) := by
  induction group generalizing i b with
  | nil => exact .inl ⟨started, [], rfl⟩
  | cons peerID group ih =>
    rw [MpcDistributor.unpackSeeds, List.length_cons]
    by_cases outside : wAddress.length < i * 3
    · exact .inr ⟨by omega, if_pos outside⟩
    · have copied : (copyAt b ((5 : Nat) : Int) (wAddress.drop (i * 3)) : Go Bytes) = _ :=
        copyAt_ok (by omega) _
      have wide' : (b.take 5 ++ (wAddress.drop (i * 3)).take (b.length - 5) ++
          b.drop (5 + (wAddress.drop (i * 3)).length)).length = 8 := by
        simp only [List.length_append, List.length_take, List.length_drop]
        omega
      rw [if_neg outside, show (5 : Int) = ((5 : Nat) : Int) from rfl, copied, Outcome.ok_bind,
        show i + (group.length + 1) = i + 1 + group.length by omega]
      rcases ih (i + 1) _ wide' (by omega) with ⟨room, peers, unpacked⟩ | ⟨short, panics⟩
      · exact .inl ⟨room, _, by rw [unpacked]; rfl⟩
      · exact .inr ⟨short, by rw [panics]; rfl⟩

/-- The names that a scan of the directory reads can be taken apart. -/
def ScansSafely (ks : KeyStore) (modified : List Bytes) : Prop :=
  ∀ path ∈ ks.files.map Prod.fst, path ∉ ks.seen ∨ path ∈ modified → Scannable path

/-- A scan panics exactly when it comes to another name. It leaves the files. -/
theorem scanAccounts_cases (kenv : KeyEnv) (ks : KeyStore) (modified : List Bytes) :
    (ScansSafely ks modified ∧
        ∃ scanned, ks.scanAccounts kenv modified = .ok scanned ∧ scanned.files = ks.files) ∨
      (¬ScansSafely ks modified ∧ ks.scanAccounts kenv modified = .panic) := by
  have index (all : List Account) (path : Bytes) :
      (Scannable path ∧ ∃ after, KeyStore.indexFile kenv ks all path = .ok after) ∨
        (¬Scannable path ∧ KeyStore.indexFile kenv ks all path = .panic) := by
    rcases readAccount_cases kenv ks path with ⟨fine, account, read⟩ | ⟨bad, panics⟩
    · exact .inl ⟨fine, _, by rw [KeyStore.indexFile, read]; rfl⟩
    · exact .inr ⟨bad, by rw [KeyStore.indexFile, panics]; rfl⟩
  simp only [KeyStore.scanAccounts]
  rcases Outcome.foldlM_cases index
    ((ks.files.map Prod.fst).filter fun path => path ∉ ks.seen) ks.all with ⟨fresh, all, folded⟩ |
      ⟨⟨path, member, bad⟩, panics⟩
  · rw [folded, Outcome.ok_bind]
    generalize List.foldl KeyStore.deleteByFile all _ = dropped
    rcases Outcome.foldlM_cases (fun all path => index (KeyStore.deleteByFile all path) path)
      (modified.filter fun path => path ∈ ks.files.map Prod.fst ∧ path ∈ ks.seen) dropped
      with ⟨again, after, refolded⟩ | ⟨⟨path, member, bad⟩, panics⟩
    · refine .inl ⟨fun path inside asked => ?_,
        { ks with all := after, seen := ks.files.map Prod.fst }, by rw [refolded]; rfl, rfl⟩
      by_cases seen : path ∈ ks.seen
      · have stamped := asked.resolve_left (not_not_intro seen)
        exact again path (List.mem_filter.mpr ⟨stamped, by simp only [inside, seen]; rfl⟩)
      · exact fresh path (List.mem_filter.mpr ⟨inside, by simp only [seen]; rfl⟩)
    · obtain ⟨stamped, inside⟩ := List.mem_filter.mp member
      exact .inr ⟨fun safe => bad (safe path (of_decide_eq_true inside).1 (.inr stamped)),
        by rw [panics]; rfl⟩
  · obtain ⟨inside, unseen⟩ := List.mem_filter.mp member
    exact .inr ⟨fun safe => bad (safe path inside (.inl (of_decide_eq_true unseen))),
      by rw [panics]; rfl⟩

/-- The index as it is, or as a rescan of the directory makes it. -/
def KeyStore.indexAfter (kenv : KeyEnv) (ks : KeyStore) : Option (List Bytes) → List Account
  | none => ks.all
  | some modified => ((ks.scanAccounts kenv modified).getD ks).all

/-- The only account of an address in an index. The zero address stands for any. -/
def OnlyAccount (all : List Account) (address : Address) (account : Account) : Prop :=
  (if address ≠ zeroAddress then all.filter (fun account => account.address = address) else all) =
    [account]

theorem safe_find_iff (kenv : KeyEnv) (ks : KeyStore) (address : Address)
    (reload : Option (List Bytes)) (required : Account → Assoc Bytes Bytes → Prop) :
    (ks.find kenv address reload).Safe (fun found => required found.1 found.2.files) ↔
      (∀ modified, reload = some modified → ScansSafely ks modified) ∧
        ∀ account, OnlyAccount (ks.indexAfter kenv reload) address account →
          required account ks.files := by
  have cached (found : KeyStore) : (do
      let account ← KeyStore.findInCache found.all address
      pure (account, found) : Go (Account × KeyStore)).Safe
        (fun found => required found.1 found.2.files) ↔
      ∀ account, OnlyAccount found.all address account → required account found.files := by
    unfold KeyStore.findInCache OnlyAccount
    dsimp only
    generalize (if address ≠ zeroAddress then _ else _ : List Account) = candidates
    match candidates with
    | [] => simp
    | [account] => simp
    | _ :: _ :: _ => simp
  unfold KeyStore.find
  cases reload with
  | none => simpa [KeyStore.indexAfter] using cached ks
  | some modified =>
    rcases scanAccounts_cases kenv ks modified with ⟨safe, scanned, returns, files⟩ | ⟨bad, panics⟩
    · simp only [returns, Outcome.ok_bind, cached, KeyStore.indexAfter, files, Outcome.getD]
      simp [safe]
    · simp [panics, bad]

/-! ### Key files, field by field

What a key file must have so that reading it does not end the process, and what
is required of its content if it opens.
-/

/-- The parameters of the key derivation are there, and the package does not panic on them. -/
def DerivesSafely (kenv : KeyEnv) (auth : Bytes) (item : CryptoJSON)
    (required : Bytes → Prop) : Prop :=
  ∃ saltText, item.salt = some saltText ∧ ∀ salt, hexDecode saltText = .ok salt →
    ∃ dkLen, item.dklen = some dkLen ∧
      (item.kdf = utf8 "scrypt" → ∃ n r p, item.n = some n ∧ item.r = some r ∧ item.p = some p ∧
        (kenv.scrypt auth salt n r p dkLen).Safe required) ∧
      (item.kdf = utf8 "pbkdf2" → (kenv.pbkdf2 auth item).Safe required)

/-- One of the two halves: the derived key has both its parts, and where its second part gives the
code of the cipher text, its first part deciphers it. -/
def ItemSafe (kenv : KeyEnv) (auth : Bytes) (item : CryptoJSON) (required : Bytes → Prop) : Prop :=
  item.cipher = utf8 "aes-128-ctr" → ∀ mac, hexDecode item.mac = .ok mac →
    ∀ iv, hexDecode item.iv = .ok iv → ∀ cipherText, hexDecode item.cipherText = .ok cipherText →
      DerivesSafely kenv auth item fun key => 32 ≤ key.length ∧
        ((kenv.keccak256 ((key.drop 16).take 16 ++ cipherText)).val = mac →
          (kenv.aesCTRXOR (key.take 16) cipherText iv).Safe required)

/-- A record of the third version. A share without a public key has no address. -/
def RecordSafe (kenv : KeyEnv) (auth : Bytes) (record : EncryptedKeyJSONV3)
    (required : Prop) : Prop :=
  record.version = keyVersion → ItemSafe kenv auth record.crypto fun d =>
    ItemSafe kenv auth record.crypto2 fun d2 => d.length = 32 → d2.length = 32 →
      (∃ raw, hexDecode record.waddress = .ok raw) → (beNat d ≠ 0 ∧ beNat d < S256.N) ∧ required

/-- The text of a key file, with the length of its field for the seeds and its group key. -/
def FileSafe (kenv : KeyEnv) (auth keyjson : Bytes) (required : Nat → Bytes → Prop) : Prop :=
  (kenv.keyVersion keyjson).Safe fun version =>
    if version = some (utf8 "1") then
      (kenv.decryptKeyV1 keyjson auth).Safe fun key => required key.wAddress.length key.exten
    else (kenv.unmarshalKey keyjson).Safe fun record =>
      RecordSafe kenv auth record (required wAddressLength record.exten)

section Files

variable {kenv : KeyEnv} {auth : Bytes}
  {ecmult : Ecmult}

theorem safe_decodeString_iff (text : Bytes) (required : Bytes → Prop) :
    (decodeString text).Safe required ↔ ∀ bytes, hexDecode text = .ok bytes → required bytes := by
  unfold decodeString
  cases hexDecode text <;> simp

theorem safe_assertType_iff {α : Type} (item : Option α) (required : α → Prop) :
    (assertType item).Safe required ↔ ∃ value, item = some value ∧ required value := by
  cases item <;> simp [assertType]

theorem safe_splitKey_iff (key : Bytes) (required : Bytes × Bytes → Prop) :
    (splitKey key).Safe required ↔
      32 ≤ key.length ∧ required (key.take 16, (key.drop 16).take 16) := by
  unfold splitKey
  split
  next short => simp [short]
  next long => simp [not_lt.mp long]

theorem safe_ite_iff {α : Type} {c : Prop} [Decidable c] (yes no : Go α) (required : α → Prop) :
    (if c then yes else no).Safe required ↔ (c → yes.Safe required) ∧ (¬c → no.Safe required) := by
  split <;> simp [*]

theorem safe_getKDFKey_iff (item : CryptoJSON) (required : Bytes → Prop) :
    (getKDFKey kenv item auth).Safe required ↔ DerivesSafely kenv auth item required := by
  have kinds : utf8 "pbkdf2" ≠ utf8 "scrypt" := by decide
  simp only [getKDFKey, Outcome.safe_bind_iff, safe_assertType_iff, safe_decodeString_iff,
    safe_ite_iff, Outcome.safe_err, implies_true, and_true, DerivesSafely]
  refine exists_congr fun _ => and_congr_right fun _ => forall₂_congr fun _ _ =>
    exists_congr fun _ => and_congr_right fun _ => and_congr (imp_congr_right fun _ => ?_) ?_
  · simp only [← exists_and_left]
  · exact ⟨fun safe kdf => safe (fun other => kinds (kdf.symm.trans other)) kdf,
      fun safe _ => safe⟩

theorem safe_decryptKeyV3Item_iff (item : CryptoJSON) (required : Bytes → Prop) :
    (decryptKeyV3Item kenv item auth).Safe required ↔ ItemSafe kenv auth item required := by
  simp only [decryptKeyV3Item, Outcome.safe_bind_iff, safe_decodeString_iff, safe_getKDFKey_iff,
    safe_splitKey_iff, safe_ite_iff, Outcome.safe_err, implies_true, true_and, not_not, ItemSafe]

theorem toPrivateKey_of_length_ne (env : Env) {d : Bytes} (length : d.length ≠ 32) :
    toPrivateKey env d = .err errInvalidPrivateKey := by
  simp [toPrivateKey, toECDSA, show 8 * d.length ≠ 256 by omega]

/-- What is done with the two scalars of a file. -/
theorem safe_key_iff (curve : kenv.curve = BitCurve.curve ecmult) (record : EncryptedKeyJSONV3)
    (d d2 : Bytes) (required : Nat → Bytes → Prop) :
    ((toPrivateKey kenv.toEnv d).Safe fun key => (toPrivateKey kenv.toEnv d2).Safe fun _ =>
      (decodeString record.waddress).Safe fun waddressRaw =>
        (copyAt (List.replicate wAddressLength 0) 0 waddressRaw : Go Bytes).Safe fun wAddress =>
          (pubkeyToAddress kenv.toEnv key.publicKey).Safe fun _ =>
            required wAddress.length record.exten) ↔
      (d.length = 32 → d2.length = 32 → (∃ raw, hexDecode record.waddress = .ok raw) →
        (beNat d ≠ 0 ∧ beNat d < S256.N) ∧ required wAddressLength record.exten) := by
  by_cases length : d.length = 32
  · obtain ⟨point, isKey, address⟩ := toPrivateKey_of_length curve length
    have hasAddress (required : Prop) :
        (pubkeyToAddress kenv.toEnv point).Safe (fun _ => required) ↔
        (beNat d ≠ 0 ∧ beNat d < S256.N) ∧ required := by
      rcases address with ⟨outside, rfl⟩ | ⟨inside, address, isAddress⟩
      · refine iff_of_false Outcome.not_safe_panic fun scalar => ?_
        omega
      · rw [isAddress, Outcome.safe_ok_iff]
        exact (and_iff_right inside).symm
    rw [isKey, Outcome.safe_ok_iff]
    by_cases length2 : d2.length = 32
    · obtain ⟨point2, isKey2, -⟩ := toPrivateKey_of_length curve length2
      have copied (raw : Bytes) : ∃ field : Bytes, field.length = wAddressLength ∧
          (copyAt (List.replicate wAddressLength 0) ((0 : Nat) : Int) raw : Go Bytes) =
            .ok field := by
        refine ⟨_, ?_, copyAt_ok (by simp) raw⟩
        simp
        omega
      rw [isKey2, Outcome.safe_ok_iff, safe_decodeString_iff]
      cases hexDecode record.waddress with
      | error error => simp
      | ok raw =>
        obtain ⟨field, width, isField⟩ := copied raw
        rw [Nat.cast_zero] at isField
        simp [isField, hasAddress, width, length, length2]
    · rw [toPrivateKey_of_length_ne _ length2]
      simp [length2]
  · rw [toPrivateKey_of_length_ne _ length]
    simp [length]

theorem safe_decryptKey_iff (curve : kenv.curve = BitCurve.curve ecmult) (keyjson : Bytes)
    (required : Nat → Bytes → Prop) :
    (decryptKey kenv keyjson auth).Safe (fun key => required key.wAddress.length key.exten) ↔
      FileSafe kenv auth keyjson required := by
  rw [decryptKey, FileSafe, Outcome.safe_bind_iff]
  refine Outcome.safe_congr (fun version => ?_) _
  split
  next => rfl
  next =>
    rw [Outcome.safe_bind_iff]
    refine Outcome.safe_congr (fun record => ?_) _
    rw [Outcome.safe_bind_iff, decryptKeyV3, RecordSafe, safe_ite_iff]
    simp only [Outcome.safe_err, implies_true, true_and, not_not, Outcome.safe_bind_iff,
      ← safe_decryptKeyV3Item_iff]
    refine imp_congr_right fun _ => Outcome.safe_congr (fun d => ?_) _
    cases decryptKeyV3Item kenv record.crypto2 auth with
    | ok d2 => simpa using safe_key_iff curve record d d2 required
    | panic => simp
    | err error =>
      -- an empty second half does not become a key
      have empty := safe_key_iff curve record d [] required
      simp only [safe_ite_iff, Outcome.pure_eq, Outcome.safe_ok_iff, empty]
      simp

/-- The group key can be read from its hex text, up to the first character that is no digit. -/
def Decodable (externString : Bytes) : Prop := toECDSAPub (hexDecodeString externString).1 ≠ none

/-- The account of an address is in the map with a group key that can be read; or else, whatever the
clock says about a rescan, its key file has room for the seeds of the group and a group key that can
be read, or cannot be opened. What is required is required of an account that is loaded. -/
def LoadSafe (kenv : KeyEnv) (srv : MpcDistributor) (address : Address) (required : Prop) : Prop :=
  match srv.mpcAccountMap.lookup address with
  | some account => Decodable account.externString ∧ required
  | none => ∀ reload, (∀ modified, reload = some modified → ScansSafely srv.keyStore modified) ∧
    ∀ account, OnlyAccount (srv.keyStore.indexAfter kenv reload) address account →
      ∀ content, srv.keyStore.files.lookup account.path = some content →
        (if srv.enableAwsKms then kenv.decryptFileToBuffer content else .ok content).Safe
          fun keyjson =>
          FileSafe kenv srv.password keyjson fun room exten =>
            srv.storeManGroup.length * 3 ≤ room + 3 ∧ Decodable exten ∧ required

theorem safe_unpackSeeds_iff (wAddress : Bytes) (group : List NodeID) (required : Prop) :
    (MpcDistributor.unpackSeeds wAddress group 0 (List.replicate 8 0)).Safe (fun _ => required) ↔
      group.length * 3 ≤ wAddress.length + 3 ∧ required := by
  rcases unpackSeeds_cases wAddress group 0 (List.replicate 8 0) rfl (by omega)
    with ⟨room, peers, unpacked⟩ | ⟨short, panics⟩
  · rw [Nat.zero_add] at room
    rw [unpacked, Outcome.safe_ok_iff, and_iff_right room]
  · rw [Nat.zero_add] at short
    rw [panics]
    exact iff_of_false Outcome.not_safe_panic fun both => short both.1

section

variable (curve : kenv.curve = BitCurve.curve ecmult) (srv : MpcDistributor) (address : Address)

include curve srv address

theorem safe_getPrivateShare_iff (reload : Option (List Bytes)) (required : Nat → Bytes → Prop) :
    (srv.getPrivateShare kenv address reload).Safe
        (fun opened => required opened.1.wAddress.length opened.1.exten) ↔
      (∀ modified, reload = some modified → ScansSafely srv.keyStore modified) ∧
        ∀ account, OnlyAccount (srv.keyStore.indexAfter kenv reload) address account →
          ∀ content, srv.keyStore.files.lookup account.path = some content →
            (if srv.enableAwsKms then kenv.decryptFileToBuffer content else .ok content).Safe
              fun keyjson => FileSafe kenv srv.password keyjson required := by
  rw [← safe_find_iff kenv srv.keyStore address reload fun account files => ∀ content,
    files.lookup account.path = some content →
      (if srv.enableAwsKms then kenv.decryptFileToBuffer content else .ok content).Safe
        fun keyjson => FileSafe kenv srv.password keyjson required,
    MpcDistributor.getPrivateShare, Outcome.safe_bind_iff]
  refine Outcome.safe_congr (fun found => ?_) _
  obtain ⟨account, keyStore⟩ := found
  dsimp only
  cases keyStore.files.lookup account.path with
  | none => simp
  | some content =>
    simp only [safe_ite_iff, Outcome.safe_bind_iff, Outcome.pure_eq, Outcome.safe_ok_iff,
      safe_decryptKey_iff curve, Option.some.injEq, forall_eq']

theorem safe_loadStoremanAddress_iff (required : Prop) :
    (∀ reload, (srv.loadStoremanAddress kenv address reload).Safe fun _ => required) ↔
      LoadSafe kenv srv address required := by
  -- the group key of an account is dereferenced in any case
  have decodes (reload : Option (List Bytes)) :
      (srv.loadStoremanAddress kenv address reload).Safe (fun _ => required) ↔
        (srv.loadAccount kenv address reload).Safe fun loaded =>
          Decodable loaded.1.externString ∧ required := by
    rw [MpcDistributor.loadStoremanAddress, Outcome.safe_bind_iff]
    refine Outcome.safe_congr (fun loaded => ?_) _
    obtain ⟨value, after⟩ := loaded
    unfold Decodable
    dsimp only
    cases toECDSAPub (hexDecodeString value.externString).1 <;> simp
  simp only [decodes, MpcDistributor.loadAccount, LoadSafe]
  cases srv.mpcAccountMap.lookup address with
  | some account => simp
  | none =>
    refine forall_congr' fun reload => ?_
    rw [Outcome.safe_bind_iff, ← safe_getPrivateShare_iff curve]
    refine Outcome.safe_congr (fun opened => ?_) _
    obtain ⟨key, keyStore⟩ := opened
    simp only [Outcome.safe_bind_iff, Outcome.pure_eq, Outcome.safe_ok_iff, safe_unpackSeeds_iff]

end

end Files

/-! ### Answering a request -/

/-- The calls of one request: the accounts and the database are those of the node, the map of
contexts is whatever the others have left. -/
inductive ServerStep (kenv : KeyEnv) :
    MpcDistributor × Db → (op : NodeOp) → NodeAns op → MpcDistributor × Db → Prop where
  | contextExists (s : MpcDistributor × Db) (contextID : Nat) (exist : Bool) :
      ServerStep kenv s (.contextExists contextID) exist s
  | load {srv after : MpcDistributor} {db : Db} {address : Address}
      {answer : Go MpcDistributor.Loaded} :
        RequestStep kenv srv (.loadStoremanAddress address) answer after →
      ServerStep kenv (srv, db) (.loadStoremanAddress address) answer (after, db)
  | db {srv : MpcDistributor} {db after : Db} {op : DbOp} {answer : DbAns op} :
      Db.Step db op answer after → ServerStep kenv (srv, db) (.db op) answer (srv, after)

/-- Nonempty, four bytes for each entry. -/
def WholeEntries (peers : Bytes) : Prop := peers.length ≠ 0 ∧ peers.length % 4 = 0

/-- What a request to sign must have: three byte strings, of which the second does not have the
length of a key or is a key with an account that can be loaded or refused, and a list of peers if it
can be loaded. -/
def AnswerableSign (env : NodeEnv) (srv : MpcDistributor) (msg : MpcMessage) : Prop :=
  ∃ mpcM address mpcExt rest, msg.bytesData = mpcM :: address :: mpcExt :: rest ∧
    (address.length = pkLength → ∃ point, toECDSAPub address = some point ∧
      ∀ add, pubkeyToAddress env.toEnv (some point) = .ok add →
        LoadSafe env.toKeyEnv srv add (WholeEntries msg.peers))

/-- The requests that a node can answer. -/
def Answerable (env : NodeEnv) (srv : MpcDistributor) (msg : MpcMessage) : Prop :=
  ∃ nType nByApprove rest, msg.data = nType :: nByApprove :: rest ∧
    if int64 nType = CtxType.mpcGPKLeader.code then WholeEntries msg.peers
    else AnswerableSign env srv msg

theorem derefPeers_ne_panic_iff (srv : MpcDistributor) (msg : MpcMessage) :
    derefPeers srv msg ≠ .panic ↔ WholeEntries msg.peers := by
  unfold derefPeers MpcDistributor.getMessagePeers WholeEntries
  by_cases whole : msg.peers.length = 0 ∨ msg.peers.length % 4 ≠ 0
  · simp only [if_pos whole, ne_eq, not_true_eq_false, false_iff]
    tauto
  · simp only [if_neg whole, ne_eq, reduceCtorEq, not_false_eq_true, true_iff]
    tauto

/-- A threshold that is not negative, and preset values none of which is an empty list. -/
theorem createContext_ne_panic {cfg : Config} (configured : 0 ≤ cfg.mpcSchnrThr)
    {ctxType : CtxType} {mpcID : Nat} {peers : List PeerInfo} {preSetValue : List MpcValue}
    (filled : ∀ item ∈ preSetValue, item.value ≠ some []) :
    createContext cfg ctxType mpcID peers preSetValue ≠ .panic := by
  have seeds (found : List Nat) : checkSeeds peers found ≠ .panic := by
    induction peers generalizing found with
    | nil => simp [checkSeeds]
    | cons item rest ih =>
      unfold checkSeeds
      split
      · simp
      · split
        · simp
        · exact ih _
  have poly (peerNum : Nat) : createSkPolyValue cfg.mpcDegree peerNum = _ :=
    createSkPolyValue_ok (by unfold Config.mpcDegree; omega) peerNum
  have noneEmpty : preSetValue.any
      (fun item => item.key ≠ .mpcPrivateShare && item.value == some []) = false := by
    simp only [List.any_eq_false]
    intro item member
    simp [filled item member]
  unfold createContext
  rw [noneEmpty]
  cases ctxType with
  | mpcGPKLeader => simp [reqGPKMpc, genCreateGPKMpc, poly]
  | mpcGPKPeer =>
    simp only [Bool.false_eq_true, if_false, ackGPKMpc, genCreateGPKMpc, poly, Outcome.ok_bind]
    rw [Outcome.bind_ne_panic_iff]
    exact ⟨seeds [], by simp⟩
  | mpcSignLeader => simp [reqSignMpc, generateTxSignMpc, poly]
  | mpcSignPeer => simp [ackSignMpc, generateTxSignMpc, poly]

theorem awaitApproval_ends {venv : ValEnv} {srv : MpcDistributor} {msg : MpcMessage}
    {P : Go Unit → Prop} (granted : P (.ok ()))
    (refused : ∀ error,
      (do let _ ← .done (derefPeers srv msg); .done (.err error) : DbM Unit).Ends P)
    (d : SendData) (nByApprove : Int) (polls : Nat) :
    (awaitApproval venv srv msg d nByApprove polls).Ends P := by
  have validated (next : Except Err Unit → DbM Unit) (passes : next (.ok ()) = pure ())
      (fails : ∀ error, next (.error error) = do
        let _ ← .done (derefPeers srv msg)
        .done (.err error)) :
      ((validateData venv d polls).attempt >>= next).Ends P := by
    refine (attempt_returns (quiet_validateData venv d polls)).bind ?_ (by simp) (by simp)
    rintro (error | _) -
    · rw [fails]
      exact refused error
    · rw [passes]
      exact granted
  unfold awaitApproval
  dsimp only
  split
  · refine (attempt_returns (quiet_addApprovingData venv d)).bind ?_ (by simp) (by simp)
    rintro (error | _) -
    · exact refused _
    · exact validated _ rfl fun _ => rfl
  · exact validated _ rfl fun _ => rfl

/-! ### Which requests can be answered -/

section Answer

variable {ecmult : Ecmult}

theorem exec_embed_server (kenv : KeyEnv) (srv : MpcDistributor) {α : Type} {p : DbM α}
    {db after : Db} {result : Go α} (exec : Exec Db.Step p db (some result) after) :
    Exec (ServerStep kenv) (NodeM.embed p) (srv, db) (some result) (srv, after) := by
  induction p generalizing db with
  | done outcome =>
    cases exec
    exact .done _ _
  | call op next ih =>
    obtain ⟨answer, u, taken, rest⟩ := exec_call_iff.mp exec
    exact .call (.db taken) (ih answer rest)

theorem Ends.embed {α : Type} {p : DbM α} {P : Go α → Prop} (ends : p.Ends P) :
    (NodeM.embed p).Ends P := by
  induction p with
  | done outcome => exact ends
  | call op next ih => exact fun answer => ih answer (ends answer)

variable {env : NodeEnv} (curve : env.curve = BitCurve.curve ecmult) (srv : MpcDistributor)
  (msg : MpcMessage)

/-- From the approval on, a request needs its list of peers, whatever the database says. -/
theorem survives_approval_iff (d : SendData) (nByApprove : Int) (polls : Nat)
    (now : MpcDistributor) (db : Db) (call : List PeerInfo → ContextCall) :
    Survives (ServerStep env.toKeyEnv)
        (do
          NodeM.embed (awaitApproval env.toValEnv srv msg d nByApprove polls)
          let peers ← .done (derefPeers srv msg)
          pure (call peers)) (now, db) ↔
      WholeEntries msg.peers := by
  rw [← derefPeers_ne_panic_iff srv]
  constructor
  · intro survives nil
    obtain ⟨first, second⟩ := survives_bind_iff.mp survives
    -- The run without faults is granted or panics, and then there is no list.
    have ran := exec_embed_server env.toKeyEnv now (exec_run Db.Step.takes
      (awaitApproval env.toValEnv srv msg d nByApprove polls) db)
    have ends : (awaitApproval env.toValEnv srv msg d nByApprove polls).Ends
        (fun result => ∀ error, result ≠ .err error) :=
      awaitApproval_ends (by simp) (by simp [nil]) d nByApprove polls
    cases result : ((awaitApproval env.toValEnv srv msg d nByApprove polls).run Db.handle db).1 with
    | ok _ =>
      rw [result] at ran
      have resumed := second _ _ ran
      rw [survives_done_bind_iff] at resumed
      exact resumed.1 nil
    | err error => exact ends.exec (exec_run Db.Step.takes _ db) error result
    | panic =>
      rw [result] at ran
      exact first _ _ ran rfl
  · intro listed
    -- with a list of peers neither way out of the wait panics
    have quiet : Quiet (awaitApproval env.toValEnv srv msg d nByApprove polls) := by
      refine awaitApproval_ends (by simp) (fun error => ?_) d nByApprove polls
      cases deref : derefPeers srv msg with
      | ok peers => simp
      | err other => simp
      | panic => exact absurd deref listed
    refine survives_bind_iff.mpr ⟨fun result t exec => (Ends.embed quiet).exec exec, ?_⟩
    intro _ t _
    rw [survives_done_bind_iff]
    exact ⟨listed, fun peers _ => by rw [pure_eq, survives_done_iff]; simp⟩

include curve in
/-- A request to sign, up to the loading of the account and from it on. -/
theorem survives_load_iff (add : Address) (db : Db)
    {rest : MpcDistributor.Loaded → NodeM ContextCall}
    (needs : ∀ loaded now, Survives (ServerStep env.toKeyEnv) (rest loaded) (now, db) ↔
      WholeEntries msg.peers) :
    Survives (ServerStep env.toKeyEnv)
        (do let loaded ← .done (← NodeM.loadStoremanAddress add); rest loaded) (srv, db) ↔
      LoadSafe env.toKeyEnv srv add (WholeEntries msg.peers) := by
  simp only [NodeM.loadStoremanAddress_bind, survives_call_iff, survives_done_bind_iff,
    ← safe_loadStoremanAddress_iff curve]
  constructor
  · intro survives reload
    constructor
    · exact fun panics => (survives .panic _ (.load (.crashed panics))).1 rfl
    · rintro ⟨loaded, after⟩ returns
      exact (needs loaded after).mp
        ((survives (.ok loaded) _ (.load (.loaded returns))).2 loaded rfl)
  · rintro safe answer t (_ | taken)
    cases taken with
    | loaded returns =>
      refine ⟨by simp, fun loaded same => ?_⟩
      exact (needs loaded _).mpr ((safe _).2 _ returns)
    | refused returns => exact ⟨by simp, by simp⟩
    | crashed panics => exact absurd panics (safe _).1

include curve in
theorem survives_sign_iff (nByApprove : Int) (polls : Nat) (db : Db) :
    Survives (ServerStep env.toKeyEnv)
        (do
          let mpcM ← .done (Outcome.index msg.bytesData 0)
          let address ← .done (Outcome.index msg.bytesData 1)
          let mpcExt ← .done (Outcome.index msg.bytesData 2)
          let add ← .done (pkToAddress env.toEnv address)
          let loaded ← .done (← NodeM.loadStoremanAddress add)
          NodeM.embed (awaitApproval env.toValEnv srv msg ⟨address, mpcM, mpcExt⟩ nByApprove polls)
          let peers ← .done (derefPeers srv msg)
          pure (⟨.mpcSignPeer, msg.contextID, peers, signPreSet address mpcM mpcExt loaded⟩ :
            ContextCall)) (srv, db) ↔
      AnswerableSign env srv msg := by
  have load (mpcM address mpcExt : Bytes) (add : Address) := survives_load_iff curve srv msg add db
    fun loaded now => survives_approval_iff srv msg ⟨address, mpcM, mpcExt⟩ nByApprove polls now
      db fun peers => ⟨.mpcSignPeer, msg.contextID, peers, signPreSet address mpcM mpcExt loaded⟩
  unfold AnswerableSign
  match msg.bytesData with
  | [] => simp [survives_done_iff]
  | [_] => simp [survives_done_iff]
  | [_, _] => simp [survives_done_iff]
  | mpcM :: address :: mpcExt :: rest =>
    simp only [Outcome.index_cons_zero, Outcome.index_cons_succ, done_ok_bind]
    rw [survives_done_bind_iff]
    simp only [load]
    change (pkToAddress env.toEnv address).Safe _ ↔ _
    rw [safe_pkToAddress_iff]
    constructor
    · exact fun safe => ⟨mpcM, address, mpcExt, rest, rfl, safe⟩
    · rintro ⟨_, _, _, _, same, safe⟩
      cases same
      exact safe

include curve in
theorem survives_prepare_iff (polls : Nat) (db : Db) :
    Survives (ServerStep env.toKeyEnv) (prepareMpcCtx env.toValEnv srv msg polls) (srv, db) ↔
      Answerable env srv msg := by
  unfold prepareMpcCtx
  rw [NodeM.contextExists_bind, survives_call_iff]
  have asked (rest : Bool → NodeM ContextCall) : (∀ answer t,
      ServerStep env.toKeyEnv (srv, db) (.contextExists msg.contextID) answer t →
        Survives (ServerStep env.toKeyEnv) (rest answer) t) ↔
      ∀ answer, Survives (ServerStep env.toKeyEnv) (rest answer) (srv, db) := by
    constructor
    · exact fun all answer => all answer _ (.contextExists _ _ _)
    · intro all answer t taken
      cases taken
      exact all answer
  rw [asked, Bool.forall_bool]
  simp only [Bool.false_eq_true, if_false, if_true, survives_done_iff, ne_eq, reduceCtorEq,
    not_false_eq_true, and_true]
  unfold Answerable
  match msg.data with
  | [] => simp [survives_done_iff]
  | [_] => simp [survives_done_iff]
  | nType :: nByApprove :: rest =>
    simp only [Outcome.index_cons_zero, Outcome.index_cons_succ, done_ok_bind]
    have generates : Survives (ServerStep env.toKeyEnv) (do
        let peers ← .done (derefPeers srv msg)
        pure (⟨.mpcGPKPeer, msg.contextID, peers, []⟩ : ContextCall)) (srv, db) ↔
          WholeEntries msg.peers := by
      rw [survives_done_bind_iff, derefPeers_ne_panic_iff]
      exact and_iff_left fun peers _ => by rw [pure_eq, survives_done_iff]; simp
    rw [survives_ite_iff, generates, survives_sign_iff curve]
    constructor
    · exact fun safe => ⟨nType, nByApprove, rest, rfl, safe⟩
    · rintro ⟨_, _, _, same, safe⟩
      cases same
      exact safe

theorem prepare_ends (polls : Nat) : (prepareMpcCtx env.toValEnv srv msg polls).Ends
    (fun result => ∀ call, result = .ok call → ∀ item ∈ call.preSetValue,
      item.value ≠ some []) := by
  unfold prepareMpcCtx
  refine ends_bind (fun exist => ?_) (by simp) (by simp)
  split
  · simp
  refine ends_bind (fun nType => ?_) (by simp) (by simp)
  refine ends_bind (fun nByApprove => ?_) (by simp) (by simp)
  split
  · refine ends_bind (fun peers => ?_) (by simp) (by simp)
    simp
  · refine ends_bind (fun mpcM => ?_) (by simp) (by simp)
    refine ends_bind (fun address => ?_) (by simp) (by simp)
    refine ends_bind (fun mpcExt => ?_) (by simp) (by simp)
    refine ends_bind (fun add => ?_) (by simp) (by simp)
    refine ends_bind (fun answer => ?_) (by simp) (by simp)
    refine ends_bind (fun loaded => ?_) (by simp) (by simp)
    refine ends_bind (fun _ => ?_) (by simp) (by simp)
    refine ends_bind (fun peers => ?_) (by simp) (by simp)
    simp [signPreSet, MpcDistributor.Loaded.shareValue, MpcDistributor.Loaded.gpkValue]

end Answer

def loadedServer : MpcDistributor :=
  let address := (sampleEnv.keccak256 (baseBytes.drop 1)).val.drop 12
  { idleServer with mpcAccountMap :=
    [(address, ⟨address, 1, [⟨1, 5⟩, ⟨2, 6⟩], hexEncode baseBytes⟩)] }

/-- The node of the samples ends with a panic on a request. -/
def CrashesSample (msg : MpcMessage) : Prop :=
  Exec (ServerStep sampleEnv.toKeyEnv)
    (createMpcCtx sampleEnv.toValEnv ⟨2, 2⟩ idleServer msg 0) (idleServer, Db.empty)
    (some .panic) (idleServer, Db.empty)

end SchnorrMpc
