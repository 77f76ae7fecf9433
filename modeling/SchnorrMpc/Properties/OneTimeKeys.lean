import SchnorrMpc.Crypto.OneTimeKey
import SchnorrMpc.Crypto.PointTable
import SchnorrMpc.Crypto.Reference
import SchnorrMpc.Schnorr.Recovery

/-!
# One-time keys belong to their recipient

The sender multiplies the second key of the recipient by its own scalar, the
recipient the sender's key by its second scalar: the same point, so the same
hash. Added to the first key in the group and to the first scalar modulo `N` it
gives a key and its scalar. The sum may be the point without coordinates, which
cannot be compared.
-/
namespace SchnorrMpc

open Lib S256

def pointDigest (env : Env) (point : Point) : Nat :=
  beNat (env.keccak256 ((fromECDSAPub point).getD [])).val

section Law

variable {E : Type} [AddCommGroup E] [Module (ZMod N) E] {env : Env} (law : GroupLaw env.curve E)

/-- Each side hashes the multiple that it computes. -/
theorem generate_of_shared {Q S : E} {k : Int} (nonneg : 0 ≤ k) (below : k < N)
    (shared : (k : ZMod N) • S = Q) :
    (∀ T : E, generateA1 env (intBytes k) (law.coords T) (law.coords S) =
      .ok (law.coords ((pointDigest env (law.coords Q) : ZMod N) • law.base + T))) ∧
    ∀ (a : Int) (A1 : Point), generateOneTimePrivateKey2528 env a k A1 (law.coords S) =
      .ok (((pointDigest env (law.coords Q) : Int) + a) % N, 0) := by
  obtain ⟨bytes, encodes⟩ := law.exists_encoding Q
  have digest : pointDigest env (law.coords Q) = beNat (env.keccak256 bytes).val := by
    rw [pointDigest, encodes]
    rfl
  have multiplied := law.scalarMult_int S nonneg (below.trans (by decide))
  rw [shared] at multiplied
  rw [digest]
  have width : (env.keccak256 bytes).val.length ≤ 32 := (env.keccak256 bytes).property.le
  constructor
  · intro T
    rw [generateA1, multiplied, Outcome.ok_bind, encodes, Outcome.ok_bind, Curve.scalarBaseMult,
      ← law.coords_base, law.scalarMult _ _ width, Outcome.ok_bind, law.add]
  · intro a A1
    rw [generateOneTimePrivateKey2528, multiplied, Outcome.ok_bind, encodes, Outcome.ok_bind]
    rfl

theorem compareA1_self {b : Bytes} {A S1 A1 : Point} (made : generateA1 env b A S1 = .ok A1) :
    compareA1 env b A S1 A1 = .ok true ↔ A1 ≠ none := by
  rw [compareA1, made, Outcome.ok_bind]
  cases A1 with
  | none => simp
  | some point => simp

/-- The key and the scalar that the recipient finds for it. -/
structure Belongs (env : Env) (a b : Int) (A A1 R : Point) (k : Int) : Prop where
  opens : generateOneTimePrivateKey2528 env a b A1 R = .ok (k, 0)
  nonneg : 0 ≤ k
  below : k < N
  generates : env.curve.scalarBaseMult (intBytes k) = .ok A1
  made : generateA1 env (intBytes b) A R = .ok A1

theorem exists_belongs (a b r : Int) (bNonneg : 0 ≤ b) (bBelow : b < N) (rPositive : 0 < r)
    (rBelow : r < N) : ∃ (sum : E) (k : Int), (law.coords sum = none ↔
      (N : Int) ∣ pointDigest env (law.coords ((r : ZMod N) • (b : ZMod N) • law.base)) + a) ∧
    generateOneTimeKey2528 env (.ok r) (law.coords ((a : ZMod N) • law.base))
        (law.coords ((b : ZMod N) • law.base)) =
      .ok (law.coords sum, law.coords ((r : ZMod N) • law.base)) ∧
      Belongs env a b (law.coords ((a : ZMod N) • law.base)) (law.coords sum)
        (law.coords ((r : ZMod N) • law.base)) k := by
  -- the sender multiplies one point by `r`, the recipient another by `b`, to the same one
  obtain ⟨sends, -⟩ := generate_of_shared law rPositive.le rBelow
    (rfl : (r : ZMod N) • (b : ZMod N) • law.base = _)
  obtain ⟨finds, opens⟩ := generate_of_shared law bNonneg bBelow
    (smul_comm (b : ZMod N) (r : ZMod N) law.base)
  generalize pointDigest env (law.coords ((r : ZMod N) • (b : ZMod N) • law.base)) = hash at *
  obtain ⟨kNonneg, kBelow⟩ := emod_N_range ((hash : Int) + a)
  refine ⟨(hash : ZMod N) • law.base + (a : ZMod N) • law.base, _, ?_, ?_, opens a _, kNonneg,
    kBelow, ?_, finds _⟩
  · rw [law.coords_eq_none_iff, ← add_smul, law.smul_base_eq_zero_iff,
      ← ZMod.intCast_zmod_eq_zero_iff_dvd]
    push_cast
    rfl
  · rw [generateOneTimeKey2528, generateKey,
      law.scalarBaseMult_int rPositive.le (rBelow.trans (by decide))]
    simp only [Outcome.pure_eq, Outcome.ok_bind, sends]
  · rw [law.scalarBaseMult_int kNonneg (kBelow.trans (by decide)), ZMod.intCast_mod, ← add_smul]
    push_cast
    rfl

end Law

theorem decode_paddedBytes {x : Int} (nonneg : 0 ≤ x) (fits : x < 256 ^ 32) :
    ∃ bytes, Hexutil.decode (Hexutil.encode (paddedBytes x)) = .ok bytes ∧
      (beNat bytes : Int) = x := by
  refine ⟨paddedBytes x, (Hexutil.decode_eq_ok_iff _ _).mpr (Hexutil.lowerCase_encode _), ?_⟩
  have small : x.natAbs < 256 ^ 32 := by omega
  have padded : paddedBytes x = bePad 32 x.natAbs := by
    have grown := replicate_append_bePad (32 - byteLen x.natAbs) (byteLen x.natAbs) x.natAbs
      (lt_pow_byteLen _)
    rw [Nat.sub_add_cancel (byteLen_le small)] at grown
    rw [← grown, paddedBytes, intBytes, length_natBytes]
    rfl
  rw [padded, beNat_bePad_of_lt small, Int.natAbs_of_nonneg nonneg]

theorem decodePoint_texts {point : Int × Int} (x : 0 ≤ point.1 ∧ point.1 < 256 ^ 32)
    (y : 0 ≤ point.2 ∧ point.2 < 256 ^ 32) :
    decodePoint (Hexutil.encode (paddedBytes point.1)) (Hexutil.encode (paddedBytes point.2)) =
      .ok point := by
  obtain ⟨bytesX, readX, valueX⟩ := decode_paddedBytes x.1 x.2
  obtain ⟨bytesY, readY, valueY⟩ := decode_paddedBytes y.1 y.2
  rw [decodePoint, readX, Outcome.ok_bind, readY, Outcome.ok_bind, valueX, valueY]
  rfl

/-- From texts to texts: what the sender prints, the recipient turns into the same key with its
scalar. When the one-time key has no coordinates, printing it ends the sender's process. -/
theorem computeOTAPPKeys_generateOneTimeKey {E : Type} [AddCommGroup E] [Module (ZMod N) E]
    {env : Env} (law : GroupLaw env.curve E) {a b r : Int} (bNonneg : 0 ≤ b) (bBelow : b < N)
    (rPositive : 0 < r) (rBelow : r < N) {A B : Int × Int}
    (isA : law.coords ((a : ZMod N) • law.base) = some A)
    (isB : law.coords ((b : ZMod N) • law.base) = some B) {unlocked : Assoc Address Key}
    {address : Address} {key : Key} (isUnlocked : unlocked.lookup address = some key)
    (first : key.privateKey.d = a) (second : key.privateKey2.d = b) :
    (∃ R, generateOneTimeKey2528 env (.ok r) (some A) (some B) = .ok (none, some R) ∧
      generateOneTimeKey env (.ok r) (Hexutil.encode (paddedBytes A.1))
        (Hexutil.encode (paddedBytes A.2)) (Hexutil.encode (paddedBytes B.1))
        (Hexutil.encode (paddedBytes B.2)) = .panic) ∨
    ∃ AX AY RX RY x y k,
      generateOneTimeKey env (.ok r) (Hexutil.encode (paddedBytes A.1))
        (Hexutil.encode (paddedBytes A.2)) (Hexutil.encode (paddedBytes B.1))
        (Hexutil.encode (paddedBytes B.2)) = .ok [AX, AY, RX, RY] ∧
      computeOTAPPKeys env unlocked address AX AY RX RY =
        .ok [AX, AY, Hexutil.encode (paddedBytes k), Hexutil.encode (paddedBytes 0)] ∧
      decodePoint AX AY = .ok (x, y) ∧ env.curve.scalarBaseMult (intBytes k) =
        .ok (some (x, y)) := by
  have fits {Q : E} {point : Int × Int} (found : law.coords Q = some point) :
      (0 ≤ point.1 ∧ point.1 < 256 ^ 32) ∧ 0 ≤ point.2 ∧ point.2 < 256 ^ 32 := by
    obtain ⟨xPos, xLt, yPos, yLt⟩ := law.coords_range Q point.1 point.2 found
    have field : (P : Int) < 256 ^ 32 := by decide
    exact ⟨⟨xPos.le, xLt.trans field⟩, yPos.le, yLt.trans field⟩
  obtain ⟨sum, k, -, made, belongs⟩ := exists_belongs law a b r bNonneg bBelow rPositive rBelow
  rw [isA, isB] at made
  rw [isA] at belongs
  -- the sender's own key is there, since its scalar is not a multiple of the order
  have finite : (r : ZMod N) • law.base ≠ 0 := by
    intro zero
    have divides := (ZMod.intCast_zmod_eq_zero_iff_dvd r N).mp
      ((law.smul_base_eq_zero_iff _).mp zero)
    exact absurd (Int.le_of_dvd rPositive divides) (by omega)
  obtain ⟨Rx, Ry, isR⟩ := law.exists_coords finite
  rw [isR] at made belongs
  have sends : generateOneTimeKey env (.ok r) (Hexutil.encode (paddedBytes A.1))
      (Hexutil.encode (paddedBytes A.2)) (Hexutil.encode (paddedBytes B.1))
      (Hexutil.encode (paddedBytes B.2)) = pkPair2HexSlice (law.coords sum) (some (Rx, Ry)) := by
    rw [generateOneTimeKey, decodePoint_texts (fits isA).1 (fits isA).2, Outcome.ok_bind,
      decodePoint_texts (fits isB).1 (fits isB).2, Outcome.ok_bind, made]
  cases isSum : law.coords sum with
  | none =>
    -- the sum is infinity, and its coordinates are dereferenced
    rw [isSum] at made sends
    exact .inl ⟨(Rx, Ry), made, sends⟩
  | some A1 =>
    -- both sides print and read the coordinates with 32 bytes
    rw [isSum] at sends belongs
    refine .inr ⟨_, _, _, _, A1.1, A1.2, k, sends, ?_,
      decodePoint_texts (fits isSum).1 (fits isSum).2, belongs.generates⟩
    rw [computeOTAPPKeys, isUnlocked]
    simp only [generteOTAPrivateKey, decodePoint_texts (fits isSum).1 (fits isSum).2,
      decodePoint_texts (fits isR).1 (fits isR).2, Outcome.ok_bind, first, second, belongs.opens]
    rfl

/-! ### A recipient with the base point as its second key -/

namespace OneTimeSample

def table : PointTable where
  entries := [
    (1, Gx, Gy),
    (0x393a75c54f3552ba0c8900297d6e99bb8abf8cc013bb0e912d0b176596fe7b88,
      0x2fcf546df2d7e42757f91f6408f374601f51ee20b76dc4ce8a073ea8a2b70f41,
      0xf49e3a8baef93a2bd5f668bfd232cf3cf7f47c54109fade14ad01ec9a9e82c43),
    (0x393a75c54f3552ba0c8900297d6e99bb8abf8cc013bb0e912d0b176596fe7b89,
      0x118c6888f1490d4dfac5193b223e67b4e589b181f679630f712c8c0fe654f699,
      0xf044c9a515f3b9650e988f3accb75bf7426157253a9f56fd9eb8bf87043e7af0),
    (0xc6c58a3ab0caad45f376ffd6829166432fef50269b8d91aa92c747273937c5b9,
      0x2fcf546df2d7e42757f91f6408f374601f51ee20b76dc4ce8a073ea8a2b70f41,
      0xb61c5745106c5d42a0997402dcd30c3080b83abef60521eb52fe1355617cfec)
  ]
  multiples := by decide +kernel
  range := by decide +kernel
  distinct := by decide +kernel
  base := by decide +kernel

def digest : Nat := 0x393a75c54f3552ba0c8900297d6e99bb8abf8cc013bb0e912d0b176596fe7b88

def env (curve : Curve) : Env where
  curve
  sha256 _ := word 0
  keccak256 bytes :=
    if bytes = 4 :: (bePad 32 Gx ++ bePad 32 Gy) then word digest
    else word 0

def key : Key := ⟨[], [], ⟨1, G⟩, ⟨1, G⟩, [], []⟩

def printed (coordinate : Int) : Bytes := Hexutil.encode (paddedBytes coordinate)

theorem computeOTAPPKeys_generateOneTimeKey_one : ∃ AX AY RX RY x y k,
    generateOneTimeKey (env table.curve) (.ok 1) (printed Gx) (printed Gy) (printed Gx)
        (printed Gy) = .ok [AX, AY, RX, RY] ∧
      computeOTAPPKeys (env table.curve) [([], key)] [] AX AY RX RY =
        .ok [AX, AY, printed k, printed 0] ∧
      decodePoint AX AY = .ok (x, y) ∧
      table.curve.scalarBaseMult (intBytes k) = .ok (some (x, y)) := by
  have sent : generateOneTimeKey (env table.curve) (.ok 1) (printed Gx) (printed Gy) (printed Gx)
      (printed Gy) ≠ .panic := by
    decide +kernel
  have base : table.law.coords (((1 : Int) : ZMod N) • table.law.base) =
      some ((Gx : Int), (Gy : Int)) := by
    rw [Int.cast_one, one_smul, table.law.coords_base]
    rfl
  have isUnlocked : ([([], key)] : Assoc Address Key).lookup [] = some key := rfl
  rcases @computeOTAPPKeys_generateOneTimeKey _ _ _ (env table.curve) table.law 1 1 1 (by decide)
    (by decide) (by decide) (by decide) (Gx, Gy) (Gx, Gy) base base _ [] key isUnlocked rfl rfl with
    ⟨_, -, ended⟩ | opens
  · exact absurd ended sent
  · exact opens

end OneTimeSample
end SchnorrMpc
