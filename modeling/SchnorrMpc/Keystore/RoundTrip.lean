import SchnorrMpc.Mpc.Distributor

/-!
# Reading a key file back

The seeds in their field of fixed length, the two encryptions of the share,
and the address as text.
-/
namespace SchnorrMpc

open Lib

variable {seeds : List Nat} {group : List NodeID} {kenv : KeyEnv} {auth : Bytes}
  {scryptN scryptP : Int} {entropy entropy2 : Entropy}
  {ecmult : Ecmult} {env : Env} {key : Key} {address : Address}

/-! ### The field of the seeds -/

def seedBytes (seeds : List Nat) : Bytes := seeds.flatMap (bePad 3)

/-- The number of seeds for which the field has room. -/
def maxSeeds : Nat := wAddressLength / 3

theorem length_seedBytes (seeds : List Nat) : (seedBytes seeds).length = 3 * seeds.length := by
  induction seeds with
  | nil => rfl
  | cons seed seeds ih =>
    simp only [seedBytes, List.flatMap_cons, List.length_append, length_bePad] at ih ⊢
    rw [ih, List.length_cons]
    omega

/-- One round of the packing loop. -/
private def packSeed (wAddress : Bytes) (entry : Nat × Nat) : Go Bytes :=
  copyAt wAddress ((entry.2 * 3 : Nat) : Int) ((bePad 8 entry.1).drop 5)

private theorem packSeeds_eq_foldlM (seeds : List Nat) :
    packSeeds seeds = seeds.zipIdx.foldlM packSeed (List.replicate wAddressLength 0) := rfl

private theorem foldlM_packSeed (seeds : List Nat) (front : Bytes) (i : Nat)
    (filled : front.length = 3 * i) (room : i + seeds.length ≤ maxSeeds) :
    (seeds.zipIdx i).foldlM packSeed (front ++ List.replicate (wAddressLength - 3 * i) 0) =
      .ok (front ++ seedBytes seeds
        ++ List.replicate (wAddressLength - 3 * (i + seeds.length)) 0) := by
  induction seeds generalizing front i with
  | nil => simp [seedBytes, Outcome.pure_eq]
  | cons seed seeds ih =>
    simp only [maxSeeds, wAddressLength, List.length_cons] at room
    have round : packSeed (front ++ List.replicate (wAddressLength - 3 * i) 0) (seed, i) =
        .ok ((front ++ bePad 3 seed) ++ List.replicate (wAddressLength - 3 * (i + 1)) 0) := by
      have low : (bePad 8 seed).drop 5 = bePad 3 seed := drop_bePad 5 3 seed
      rw [packSeed, low, copyAt_ok (by simp [wAddressLength]; omega)]
      rw [List.take_append_of_le_length (by omega), List.take_of_length_le (by omega),
        List.take_of_length_le (by simp [wAddressLength]; omega), List.drop_append,
        List.drop_of_length_le (by simp; omega), List.nil_append, List.drop_replicate]
      congr 3
      simp only [length_bePad, wAddressLength]
      omega
    rw [List.zipIdx_cons, List.foldlM_cons, round, Outcome.ok_bind,
      ih (front ++ bePad 3 seed) (i + 1) (by simp; omega)
        (by simp [maxSeeds, wAddressLength]; omega)]
    simp only [seedBytes, List.flatMap_cons, List.append_assoc, List.length_cons]
    rw [show i + 1 + seeds.length = i + (seeds.length + 1) by omega]

theorem packSeeds_of_fits (fits : seeds.length ≤ maxSeeds) :
    packSeeds seeds =
      .ok (seedBytes seeds ++ List.replicate (wAddressLength - 3 * seeds.length) 0) := by
  have packed := foldlM_packSeed seeds [] 0 rfl (by omega)
  simpa [packSeeds_eq_foldlM] using packed

private theorem packSeeds_full (full : seeds.length = maxSeeds) :
    packSeeds seeds = .ok (seedBytes seeds) := by
  rw [packSeeds_of_fits full.le, full]
  simp [maxSeeds, wAddressLength]

theorem packSeeds_append_one (full : seeds.length = maxSeeds) (seed : Nat) :
    packSeeds (seeds ++ [seed]) = .ok (seedBytes seeds) := by
  have packed := packSeeds_full full
  have length := length_seedBytes seeds
  rw [packSeeds_eq_foldlM] at packed ⊢
  rw [List.zipIdx_append, List.foldlM_append, packed, Outcome.ok_bind, full, Nat.zero_add]
  rw [full] at length
  have atEnd : packSeed (seedBytes seeds) (seed, maxSeeds) = .ok (seedBytes seeds) := by
    rw [packSeed, copyAt_ok (by rw [length]; omega), List.take_of_length_le (by rw [length]; omega),
      length, show 3 * maxSeeds - maxSeeds * 3 = 0 by omega, List.take_zero, List.append_nil,
      List.drop_of_length_le (by rw [length]; omega), List.append_nil]
  simp [List.zipIdx_cons, atEnd, Outcome.pure_eq]

theorem packSeeds_panic (many : maxSeeds + 1 < seeds.length) : packSeeds seeds = .panic := by
  obtain ⟨first, cut, past, rest, rfl, full⟩ : ∃ first cut past rest,
      seeds = (first ++ [cut]) ++ past :: rest ∧ first.length = maxSeeds := by
    refine ⟨seeds.take maxSeeds, seeds[maxSeeds], seeds[maxSeeds + 1], seeds.drop (maxSeeds + 2),
      ?_, by rw [List.length_take]; omega⟩
    rw [List.take_concat_get', ← List.drop_eq_getElem_cons, List.take_append_drop]
  have packed := packSeeds_append_one full cut
  have length := length_seedBytes first
  rw [packSeeds_eq_foldlM] at packed ⊢
  rw [List.zipIdx_append, List.foldlM_append, packed, Outcome.ok_bind, List.zipIdx_cons,
    List.foldlM_cons]
  have outside : packSeed (seedBytes first) (past, 0 + (first ++ [cut]).length) = .panic := by
    rw [packSeed, copyAt_panic]
    simp only [List.length_append, List.length_singleton, length, full]
    omega
  rw [outside, Outcome.panic_bind]

private theorem copyAt_buffer {stale seed : Nat} (staleSmall : stale < 2 ^ 24)
    (seedSmall : seed < 2 ^ 24) (rest : Bytes) :
    (copyAt (bePad 8 stale) 5 (bePad 3 seed ++ rest) : Go Bytes) = .ok (bePad 8 seed) := by
  have staleWide := replicate_append_bePad 5 3 stale staleSmall
  have seedWide := replicate_append_bePad 5 3 seed seedSmall
  rw [show (5 : Int) = ((5 : Nat) : Int) from rfl, copyAt_ok (by simp), ← staleWide, ← seedWide]
  rw [List.take_append_of_le_length (by simp), List.take_of_length_le (by simp),
    List.take_append_of_le_length (by simp), List.take_of_length_le (by simp),
    List.drop_of_length_le (by simp; omega), List.append_nil]

/-- Reading the field yields the seeds that are in it. Whoever comes after them is left with the
buffer of the round before. -/
theorem unpackSeeds_append (wAddress : Bytes) (group more : List NodeID) (seeds : List Nat)
    (tail : Bytes) (i stale : Nat) (sameLength : seeds.length = group.length)
    (small : ∀ seed ∈ stale :: seeds, seed < 2 ^ 24)
    (holds : wAddress.drop (i * 3) = seedBytes seeds ++ tail) :
    MpcDistributor.unpackSeeds wAddress (group ++ more) i (bePad 8 stale) =
      (MpcDistributor.unpackSeeds wAddress more (i + group.length)
        (bePad 8 ((stale :: seeds).getLast (by simp)))
      >>= fun peers => pure (List.zipWith PeerInfo.mk group seeds ++ peers)) := by
  induction seeds generalizing group i stale with
  | nil =>
    obtain rfl := List.length_eq_zero_iff.mp sameLength.symm
    exact (bind_pure _).symm
  | cons seed seeds ih =>
    obtain _ | ⟨peerID, group⟩ := group
    · simp at sameLength
    have staleSmall := small stale (by simp)
    have seedSmall := small seed (by simp)
    rw [seedBytes, List.flatMap_cons, List.append_assoc] at holds
    have inside : ¬wAddress.length < i * 3 := by
      have length := congrArg List.length holds
      simp only [List.length_drop, List.length_append, length_bePad] at length
      omega
    have next : wAddress.drop ((i + 1) * 3) = seedBytes seeds ++ tail := by
      rw [Nat.add_mul, Nat.one_mul, ← List.drop_drop, holds,
        List.drop_append_of_le_length (by simp), List.drop_of_length_le (by simp), List.nil_append]
      rfl
    have later := ih group (i + 1) seed (by simpa using sameLength)
      (fun other member => small other (List.mem_cons_of_mem _ member)) next
    rw [List.cons_append, MpcDistributor.unpackSeeds, if_neg inside, holds,
      copyAt_buffer staleSmall seedSmall, Outcome.ok_bind, later, List.getLast_cons_cons,
      List.length_cons, show i + 1 + group.length = i + (group.length + 1) by omega]
    simp [beNat_bePad_of_lt (show seed < 256 ^ 8 by omega)]

theorem unpackSeeds_of_fits (tail : Bytes) (sameLength : seeds.length = group.length)
    (small : ∀ seed ∈ seeds, seed < 2 ^ 24) :
    MpcDistributor.unpackSeeds (seedBytes seeds ++ tail) group 0 (List.replicate 8 0) =
      .ok (List.zipWith PeerInfo.mk group seeds) := by
  have read := unpackSeeds_append (seedBytes seeds ++ tail) group [] seeds tail 0 0 sameLength
    (by simpa using small) rfl
  rw [show List.replicate 8 0 = bePad 8 0 by decide]
  simpa [MpcDistributor.unpackSeeds] using read

theorem unpackSeeds_past_end (last : NodeID) (sameLength : seeds.length = group.length)
    (small : ∀ seed ∈ seeds, seed < 2 ^ 24) :
    MpcDistributor.unpackSeeds (seedBytes seeds) (group ++ [last]) 0 (List.replicate 8 0) =
      .ok (List.zipWith PeerInfo.mk group seeds ++ [⟨last, (0 :: seeds).getLast (by simp)⟩]) := by
  have read := unpackSeeds_append (seedBytes seeds) group [last] seeds [] 0 0 sameLength
    (by simpa using small) (by simp)
  have lastSmall : (0 :: seeds).getLast (by simp) < 2 ^ 24 := by
    rcases List.mem_cons.mp (List.getLast_mem (List.cons_ne_nil 0 seeds)) with zero | member
    · rw [zero]; decide
    · exact small _ member
  have length := length_seedBytes seeds
  have atEnd : (copyAt (bePad 8 ((0 :: seeds).getLast (by simp))) 5 [] : Go Bytes) =
      .ok (bePad 8 ((0 :: seeds).getLast (by simp))) := by
    rw [show (5 : Int) = ((5 : Nat) : Int) from rfl, copyAt_ok (by simp)]
    simp
  rw [MpcDistributor.unpackSeeds, if_neg (by omega), List.drop_of_length_le (by omega), atEnd]
    at read
  rw [show List.replicate 8 0 = bePad 8 0 by decide]
  simpa [MpcDistributor.unpackSeeds, beNat_bePad_of_lt (lastSmall.trans (by decide : _ < 256 ^ 8))]
    using read

/-! ### Encryption -/

/-- What the packages behind a key file are known for: key derivation returns as many bytes as
it is asked for, and the stream cipher applied twice gives the text back. -/
structure CipherLaws (kenv : KeyEnv) (auth : Bytes) (scryptN scryptP : Int) : Prop where
  scrypt : ∀ salt, ∃ key,
    kenv.scrypt auth salt scryptN scryptR scryptP scryptDKLen = .ok key ∧ key.length = 32
  aesCTRXOR : ∀ key text iv, key.length = 16 → iv.length = 16 →
    ∃ out, kenv.aesCTRXOR key text iv = .ok out ∧ kenv.aesCTRXOR key out iv = .ok text

@[simp] theorem decodeString_hexEncode (bytes : Bytes) :
    decodeString (hexEncode bytes) = .ok bytes := by
  rw [decodeString, hexDecode_hexEncode]

theorem encryptOnePrivateKey_spec (laws : CipherLaws kenv auth scryptN scryptP)
    (privateKey : PrivateKey) (iv : entropy.iv.length = 16) :
    ∃ item, encryptOnePrivateKey kenv privateKey auth scryptN scryptP entropy = .ok item ∧
      decryptKeyV3Item kenv item auth = .ok (paddedBigBytes privateKey.d 32) := by
  obtain ⟨derivedKey, derived, length⟩ := laws.scrypt entropy.salt
  have split : splitKey derivedKey = .ok (derivedKey.take 16, (derivedKey.drop 16).take 16) := by
    rw [splitKey, if_neg (by omega)]
  obtain ⟨cipherText, encrypts, decrypts⟩ := laws.aesCTRXOR (derivedKey.take 16)
    (paddedBigBytes privateKey.d 32) entropy.iv (by rw [List.length_take]; omega) iv
  simp only [encryptOnePrivateKey, derived, split, encrypts, Outcome.ok_bind, Outcome.pure_eq,
    Outcome.ok.injEq, exists_eq_left']
  simp only [decryptKeyV3Item, getKDFKey, assertType, derived, split, decrypts, Outcome.ok_bind,
    decodeString_hexEncode, ne_eq, not_true_eq_false, if_false, if_true]

/-- What JSON is known for: a record comes back as it was, with a number as its version, and a
scan finds its address. -/
def JsonRoundTrips (kenv : KeyEnv) (record : EncryptedKeyJSONV3) : Prop :=
  ∃ text, kenv.marshalKey record = .ok text ∧ kenv.keyVersion text = .ok none ∧
    kenv.unmarshalKey text = .ok record ∧ kenv.unmarshalAddress text = some record.address

/-- A scalar of 32 bytes becomes a key. Its public key has an address, unless it is zero or not
below the order and so has no public key. -/
theorem toPrivateKey_of_length (curve : env.curve = BitCurve.curve ecmult) {d : Bytes}
    (length : d.length = 32) : ∃ point, toPrivateKey env d = .ok ⟨beNat d, point⟩ ∧
      ((S256.N ≤ beNat d ∨ beNat d = 0) ∧ point = none ∨
        (beNat d ≠ 0 ∧ beNat d < S256.N) ∧ ∃ address, pubkeyToAddress env point = .ok address) := by
  have made (point : Point) (multiplied : env.curve.scalarBaseMult d = .ok point) :
      toPrivateKey env d = .ok ⟨beNat d, point⟩ := by
    simp [toPrivateKey, toECDSA, multiplied, length]
  by_cases outside : S256.N ≤ beNat d ∨ beNat d = 0
  · refine ⟨none, made _ ?_, .inl ⟨outside, rfl⟩⟩
    simp [curve, Curve.scalarBaseMult, BitCurve.curve, BitCurve.scalarMult, length, S256.G,
      BitCurve.pubkeyScalarMul, outside]
  · obtain ⟨x, y, multiplied⟩ : ∃ x y : BitVec 256,
        env.curve.scalarBaseMult d = .ok (some ((x.toNat : Int), (y.toNat : Int))) := by
      simp only [curve, Curve.scalarBaseMult, BitCurve.curve, BitCurve.scalarMult, length,
        lt_irrefl, if_false, S256.G, BitCurve.pubkeyScalarMul, if_neg outside]
      exact ⟨_, _, rfl⟩
    have fits (z : BitVec 256) : ((z.toNat : Nat) : Int).natAbs < 256 ^ 32 := z.isLt
    refine ⟨_, made _ multiplied, .inr ⟨by omega, ?_⟩⟩
    simp [pubkeyToAddress, fromECDSAPub_eq (fits x) (fits y)]

section Share

variable {d : Int} (positive : 0 < d) (below : d < S256.N)

include positive below

private theorem share_natAbs_lt : d.natAbs < 256 ^ 32 := by
  have bound : S256.N < 256 ^ 32 := by norm_num [S256.N]
  exact lt_trans (by omega) bound

theorem paddedBigBytes_share : paddedBigBytes d 32 = bePad 32 d.natAbs := by
  rw [paddedBigBytes, if_pos (byteLen_le (share_natAbs_lt positive below))]

theorem toPrivateKey_share (curve : env.curve = BitCurve.curve ecmult) :
    ∃ point address, toPrivateKey env (bePad 32 d.natAbs) = .ok ⟨d, point⟩ ∧
      pubkeyToAddress env point = .ok address := by
  have scalar : beNat (bePad 32 d.natAbs) = d.natAbs :=
    beNat_bePad_of_lt (share_natAbs_lt positive below)
  obtain ⟨point, isKey, ⟨outside, -⟩ | ⟨-, address, isAddress⟩⟩ :=
    toPrivateKey_of_length curve (length_bePad 32 d.natAbs)
  · omega
  · rw [scalar, Int.natAbs_of_nonneg positive.le] at isKey
    exact ⟨point, address, isKey, isAddress⟩

end Share

section

variable (curve : kenv.curve = BitCurve.curve ecmult) (laws : CipherLaws kenv auth scryptN scryptP)
  (positive : 0 < key.privateKey.d) (below : key.privateKey.d < S256.N)
  (twice : key.privateKey2 = key.privateKey) (field : key.wAddress.length = wAddressLength)
  (iv : entropy.iv.length = 16) (iv2 : entropy2.iv.length = 16)
  (json : ∀ record, keyRecord kenv key auth scryptN scryptP entropy entropy2 = .ok record →
    JsonRoundTrips kenv record)

include curve laws positive below twice field iv iv2 json

/-- What is read from a key file: the address is made from the share. -/
theorem decryptKey_encryptKey_eq :
    ∃ text point address, encryptKey kenv key auth scryptN scryptP entropy entropy2 = .ok text ∧
      kenv.unmarshalAddress text = some (addressHex kenv.toEnv key.address) ∧
      toPrivateKey kenv.toEnv (bePad 32 key.privateKey.d.natAbs) =
        .ok ⟨key.privateKey.d, point⟩ ∧
      pubkeyToAddress kenv.toEnv point = .ok address ∧
      decryptKey kenv text auth = .ok ⟨key.id, address, ⟨key.privateKey.d, point⟩,
        ⟨key.privateKey.d, point⟩, key.wAddress, key.exten⟩ := by
  obtain ⟨crypto, encrypted, decrypted⟩ := encryptOnePrivateKey_spec laws key.privateKey iv
  obtain ⟨crypto2, encrypted2, decrypted2⟩ := encryptOnePrivateKey_spec laws key.privateKey iv2
  rw [paddedBigBytes_share positive below] at decrypted decrypted2
  have record : keyRecord kenv key auth scryptN scryptP entropy entropy2 = .ok ⟨
      addressHex kenv.toEnv key.address, crypto, crypto2, key.id, keyVersion,
      hexEncode key.wAddress, key.exten⟩ := by
    simp only [keyRecord, twice, encrypted, encrypted2, Outcome.ok_bind, Outcome.pure_eq]
  obtain ⟨text, marshalled, version, unmarshalled, address⟩ := json _ record
  obtain ⟨point, shareAddress, toKey, toAddress⟩ := toPrivateKey_share positive below curve
  have copied : (copyAt (List.replicate wAddressLength 0) 0 key.wAddress : Go Bytes) =
      .ok key.wAddress := by
    rw [show (0 : Int) = ((0 : Nat) : Int) from rfl, copyAt_ok (by simp)]
    simp [field]
  refine ⟨text, point, shareAddress, ?_, address, toKey, toAddress, ?_⟩
  · rw [encryptKey, record, Outcome.ok_bind, marshalled]
  · simp only [decryptKey, decryptKeyV3, version, unmarshalled, decrypted, decrypted2, toKey,
      copied, toAddress, decodeString_hexEncode, Outcome.ok_bind, Outcome.pure_eq, reduceCtorEq,
        if_false,
      ne_eq, not_true_eq_false]

/-- A key file gives the share, the seeds and the group key back. -/
theorem decryptKey_encryptKey :
    ∃ text, encryptKey kenv key auth scryptN scryptP entropy entropy2 = .ok text ∧
      kenv.unmarshalAddress text = some (addressHex kenv.toEnv key.address) ∧
      ∃ read, decryptKey kenv text auth = .ok read ∧ read.privateKey.d = key.privateKey.d ∧
        read.wAddress = key.wAddress ∧ read.exten = key.exten := by
  obtain ⟨text, point, address, encrypted, recorded, -, -, decrypted⟩ :=
    decryptKey_encryptKey_eq curve laws positive below twice field iv iv2 json
  exact ⟨text, encrypted, recorded, _, decrypted, rfl, rfl, rfl⟩

end

/-! ### Addresses as text -/

theorem length_addressHex (env : Env) (length : address.length = 20) :
    (addressHex env address).length = 40 := by
  have hash := (env.keccak256 (hexEncode address)).property
  rw [addressHex, List.length_zipWith, length_hexEncode, length_hexEncode, hash, length]
  rfl

private theorem addressHex_digits (env : Env) (length : address.length = 20) :
    (addressHex env address).map hexValue = (hexEncode address).map hexValue := by
  have width := length_addressHex env length
  have plain := length_hexEncode address
  refine List.ext_getElem (by simp [width, plain, length]) fun i inside _ => ?_
  simp only [List.getElem_map, addressHex, List.getElem_zipWith]
  split
  next raised =>
    obtain ⟨n, digit, same⟩ := mem_hexEncode (List.getElem_mem (l := hexEncode address) (n := i)
      (by simpa [width, plain, length] using inside))
    rw [same] at raised ⊢
    exact hexValue_sub_32 digit raised.1
  · rfl

theorem hexValue_of_mem_addressHex {env : Env} (length : address.length = 20) {char : UInt8}
    (member : char ∈ addressHex env address) : hexValue char ≠ none := by
  have value := List.mem_map_of_mem (f := hexValue) member
  rw [addressHex_digits env length] at value
  obtain ⟨digit, encoded, same⟩ := List.mem_map.mp value
  obtain ⟨n, small, rfl⟩ := mem_hexEncode encoded
  simp [← same, hexValue_hexDigit n small]

theorem hexToAddress_addressHex (env : Env) (length : address.length = 20) :
    KeyStore.hexToAddress (addressHex env address) = address := by
  have width := length_addressHex env length
  have digits := addressHex_digits env length
  have decoded := hexDecodeString_of_digits digits
  -- Every character is a digit, so there is no mark of hexadecimal text to strip.
  have bare (mark : Bytes) (letter : UInt8) (inMark : letter ∈ mark)
      (noDigit : hexValue letter = none) : (addressHex env address).take 2 ≠ mark := by
    rintro rfl
    have member := List.mem_map_of_mem (f := hexValue) (List.mem_of_mem_take inMark)
    rw [digits, noDigit] at member
    obtain ⟨char, encoded, value⟩ := List.mem_map.mp member
    obtain ⟨n, digit, rfl⟩ := mem_hexEncode encoded
    rw [hexValue_hexDigit n digit] at value
    cases value
  have lower := bare (utf8 "0x") 120 (by decide) (by decide)
  have upper := bare (utf8 "0X") 88 (by decide) (by decide)
  have read : KeyStore.fromHex (addressHex env address) = address := by
    simp [KeyStore.fromHex, lower, upper, width, decoded]
  simp [KeyStore.hexToAddress, read, length]

end SchnorrMpc
