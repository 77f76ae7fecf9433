import SchnorrMpc.SigVerify.Uint256
import SchnorrMpc.SigVerify.SchnorrVerifier

/-!
# The verifier on EOS

`verifier::verify` takes its arguments as hexadecimal text. A failed assertion
and a failed call of the string library end the action, which is `none` here.
The operations of `bcl::CurvePoint` that change a point are parameters.
-/
namespace SchnorrMpc.SigVerify

open Lib S256

/-- `FieldInt(const char *)`: the number has to be below the modulus. -/
def fieldInt (text : Bytes) : Option Nat := do
  let value ← uint256 text
  if value < P then some value else none

/-- A point in projective coordinates. -/
structure CurvePoint where
  x : Nat
  y : Nat
  z : Nat
  deriving DecidableEq, Repr

namespace CurvePoint

def ofStrings (xStr yStr : Bytes) : Option CurvePoint := do
  let x ← fieldInt xStr
  let y ← fieldInt yStr
  some ⟨x, y, 1⟩

def zero : CurvePoint := ⟨0, 1, 0⟩

def G : CurvePoint := ⟨Gx, Gy, 1⟩

def isZero (point : CurvePoint) : Bool := point.x == 0 && point.y != 0 && point.z == 0

/-- Meant for a normalized point: the third coordinate is read by `isZero` only. -/
def isOnCurve (point : CurvePoint) : Bool :=
  point.y * point.y % P == ((point.x * point.x + 0) * point.x + B) % P && !point.isZero

/-- The normalized form of an element of the group. -/
def normal (Q : Group) : CurvePoint :=
  match ShortWeierstrass.coords Q with
  | none => zero
  | some (x, y) => ⟨x, y, 1⟩

end CurvePoint

structure CurvePointOps where
  multiply : CurvePoint → Nat → CurvePoint
  add : CurvePoint → CurvePoint → CurvePoint
  normalize : CurvePoint → CurvePoint

/-- From normalized points the operations compute the group law, up to a normalization. -/
structure CurvePointOps.Law (ops : CurvePointOps) : Prop where
  multiply : ∀ (Q : Group) (n : Nat), n < 2 ^ 256 →
    ops.normalize (ops.multiply (.normal Q) n) = .normal (n • Q)
  add : ∀ Q R : Group, ops.normalize (ops.add (.normal Q) (.normal R)) = .normal (Q + R)

namespace Verifier

/-- `std::string::substr`, which throws for a start beyond the end. -/
def substr (text : Bytes) (pos count : Nat) : Option Bytes :=
  if text.length < pos then none else some ((text.drop pos).take count)

/-- Two digits for each byte. The value `sscanf` leaves for other text is not defined. -/
def fromHexPairs : Bytes → Option Bytes
  | high :: low :: rest => do
    let h ← hexValue high
    let l ← hexValue low
    let bytes ← fromHexPairs rest
    some (UInt8.ofNat (h * 16 + l) :: bytes)
  | [_] => none
  | [] => some []

def fromHex (text : Bytes) : Option Bytes := fromHexPairs (cString text)

def toHex (hashed : Bytes32) : Bytes := hexEncode hashed.val

def assert (condition : Bool) : Option Unit := if condition then some () else none

def verify (sha256 : Bytes → Bytes32) (ops : CurvePointOps)
    (randomPoint signature groupKey raw_msg : Bytes) : Option Bool := do
  let groupKeyX ← substr groupKey 2 64
  let groupKeyY ← substr groupKey 66 64
  let randomPointX ← substr randomPoint 2 64
  let randomPointY ← substr randomPoint 66 64
  let R ← CurvePoint.ofStrings randomPointX randomPointY
  let PK ← CurvePoint.ofStrings groupKeyX groupKeyY
  assert R.isOnCurve
  assert PK.isOnCurve
  -- inner hash
  let raw_msg_bytes ← fromHex raw_msg
  let message := toHex (sha256 raw_msg_bytes)
  -- outer hash
  let hash_input_bytes ← fromHex (message ++ randomPoint)
  let result := toHex (sha256 hash_input_bytes)
  -- left side: s*G
  let s ← uint256 signature
  let left := ops.normalize (ops.multiply .G s)
  assert left.isOnCurve
  -- right side: R + m*PK
  let m ← uint256 result
  let PK := ops.normalize (ops.multiply PK m)
  let right := ops.normalize (ops.add PK R)
  assert right.isOnCurve
  let ret := left == right
  assert ret
  some ret

end Verifier

/-! ### What the verifier reads -/

theorem hexEncode_append (left right : Bytes) :
    hexEncode (left ++ right) = hexEncode left ++ hexEncode right := by
  induction left with
  | nil => rfl
  | cons byte rest ih => simp [hexEncode, ih]

theorem fieldInt_bePad {n : Nat} (below : n < P) : fieldInt (hexEncode (bePad 32 n)) = some n := by
  have fits : n < 256 ^ 32 := below.trans (by decide +kernel)
  rw [fieldInt, uint256_hexEncode, if_pos (length_bePad 32 n), beNat_bePad_of_lt fits]
  simp [below]

namespace Verifier

theorem fromHex_hexEncode (bytes : Bytes) : fromHex (hexEncode bytes) = some bytes := by
  rw [fromHex, cString_hexEncode]
  induction bytes with
  | nil => rfl
  | cons byte rest ih =>
    have bound := byte.toNat_lt
    have whole : byte.toNat / 16 * 16 + byte.toNat % 16 = byte.toNat := by omega
    rw [hexEncode, fromHexPairs, hexValue_hexDigit _ (by omega), hexValue_hexDigit _ (by omega), ih]
    simp only [Option.bind_eq_bind, Option.bind_some, whole, UInt8.ofNat_toNat]

theorem substr_point (x y : Nat) :
    substr (hexEncode (4 :: (bePad 32 x ++ bePad 32 y))) 2 64 = some (hexEncode (bePad 32 x)) ∧
      substr (hexEncode (4 :: (bePad 32 x ++ bePad 32 y))) 66 64 =
        some (hexEncode (bePad 32 y)) := by
  have xLength : (hexEncode (bePad 32 x)).length = 64 := by rw [length_hexEncode, length_bePad]
  have yLength : (hexEncode (bePad 32 y)).length = 64 := by rw [length_hexEncode, length_bePad]
  obtain ⟨a, b, text⟩ : ∃ a b, hexEncode (4 :: (bePad 32 x ++ bePad 32 y)) =
      a :: b :: (hexEncode (bePad 32 x) ++ hexEncode (bePad 32 y)) :=
    ⟨_, _, by rw [hexEncode, hexEncode_append]⟩
  rw [text]
  constructor
  · rw [substr, if_neg (by simp), List.drop_succ_cons, List.drop_succ_cons, List.drop_zero,
      List.take_append_of_le_length xLength.ge, List.take_of_length_le xLength.le]
  · rw [substr, if_neg (by simp [xLength, yLength]), List.drop_succ_cons, List.drop_succ_cons,
      List.drop_append_of_le_length xLength.ge, List.drop_of_length_le xLength.le,
      List.nil_append, List.take_of_length_le yLength.le]

end Verifier

/-! ### The decision -/

namespace CurvePoint

theorem normal_injective : Function.Injective normal := by
  intro Q R same
  apply ShortWeierstrass.coords_injective
  unfold normal at same
  cases left : ShortWeierstrass.coords Q with
  | none =>
    cases right : ShortWeierstrass.coords R with
    | none => rfl
    | some xy =>
      rw [left, right] at same
      cases congrArg z same
  | some xy =>
    cases right : ShortWeierstrass.coords R with
    | none =>
      rw [left, right] at same
      cases congrArg z same
    | some xy' =>
      rw [left, right] at same
      simp only [mk.injEq, and_true] at same
      rw [Prod.ext same.1 same.2]

theorem normal_base : normal base = G := by
  have found := words_base
  obtain ⟨xy, coords⟩ := coords_of_ne_zero base_ne_zero
  rw [words, coords, Option.getD_some] at found
  rw [normal, coords, found]
  rfl

theorem isOnCurve_normal (Q : Group) : (normal Q).isOnCurve = true ↔ Q ≠ 0 := by
  cases Q with
  | zero =>
    have off : (normal 0).isOnCurve = false := by decide +kernel
    change (normal 0).isOnCurve = true ↔ (0 : Group) ≠ 0
    rw [off]
    simp
  | some x y nonsingular =>
    have equation := (ShortWeierstrass.equation_iff x y).mp nonsingular.1
    have sides : y.val * y.val % P = ((x.val * x.val + 0) * x.val + B) % P := by
      rw [← ZMod.natCast_eq_natCast_iff']
      push_cast
      simp only [ZMod.natCast_val, ZMod.cast_id', id_eq]
      linear_combination equation
    simp [normal, isOnCurve, isZero, sides, WeierstrassCurve.Affine.Point.some_ne_zero]

end CurvePoint

theorem CurvePoint.ofStrings_coords {Q : Group} {x y : Nat}
    (found : ShortWeierstrass.coords Q = some (x, y)) :
    ofStrings (hexEncode (bePad 32 x)) (hexEncode (bePad 32 y)) = some (normal Q) := by
  obtain ⟨xLt, yLt⟩ := coords_lt found
  simp [ofStrings, fieldInt_bePad xLt, fieldInt_bePad yLt, normal, found]

/-- Called with the encodings of points of the curve, the contract decides the equation. -/
theorem Verifier.verify_iff {sha256 : Bytes → Bytes32} {ops : CurvePointOps} (law : ops.Law)
    {gpk R : Group} {gpkX gpkY rX rY s : Nat} (M : Bytes)
    (isKey : ShortWeierstrass.coords gpk = some (gpkX, gpkY))
    (isR : ShortWeierstrass.coords R = some (rX, rY)) (positive : 0 < s) (below : s < N) :
    verify sha256 ops (hexEncode (4 :: (bePad 32 rX ++ bePad 32 rY))) (hexEncode (bePad 32 s))
        (hexEncode (4 :: (bePad 32 gpkX ++ bePad 32 gpkY))) (hexEncode M) = some true ↔
      s • base = R + beNat (sha256 ((sha256 M).val ++
        4 :: (bePad 32 rX ++ bePad 32 rY))).val • gpk := by
  have fits : s < 256 ^ 32 := below.trans (by decide +kernel)
  have keyFinite : gpk ≠ 0 := by
    rintro rfl
    cases isKey
  have rFinite : R ≠ 0 := by
    rintro rfl
    cases isR
  have sFinite : s • base ≠ 0 := by
    rw [ne_eq, nsmul_eq_zero_iff base_ne_zero]
    exact Nat.not_dvd_of_pos_of_lt positive below
  -- the challenge is that of the node
  obtain ⟨m, isM⟩ : ∃ m, m = beNat (sha256 ((sha256 M).val ++
    4 :: (bePad 32 rX ++ bePad 32 rY))).val := ⟨_, rfl⟩
  have mFits : m < 2 ^ 256 := isM ▸ beNat_val_lt _
  have number : uint256 (hexEncode (bePad 32 s)) = some s := by
    rw [uint256_hexEncode, if_pos (length_bePad 32 s), beNat_bePad_of_lt fits]
  have challenge (digest : Bytes32) : uint256 (toHex digest) = some (beNat digest.val) := by
    rw [toHex, uint256_hexEncode, if_pos digest.property]
  have hashed : fromHex (toHex (sha256 M) ++ hexEncode (4 :: (bePad 32 rX ++ bePad 32 rY))) =
      some ((sha256 M).val ++ 4 :: (bePad 32 rX ++ bePad 32 rY)) := by
    rw [toHex, ← hexEncode_append, fromHex_hexEncode]
  have left := law.multiply base s fits
  rw [CurvePoint.normal_base] at left
  rw [← isM]
  -- the contract reads its texts as they were written
  unfold verify
  simp only [(substr_point _ _).1, (substr_point _ _).2, CurvePoint.ofStrings_coords isKey,
    CurvePoint.ofStrings_coords isR, (CurvePoint.isOnCurve_normal _).mpr keyFinite,
    (CurvePoint.isOnCurve_normal _).mpr rFinite, fromHex_hexEncode, hashed, number, challenge,
    ← isM, left, (CurvePoint.isOnCurve_normal _).mpr sFinite, law.multiply gpk m mFits, law.add,
    assert, if_true, Option.bind_eq_bind, Option.bind_some]
  rw [add_comm R]
  by_cases valid : s • base = m • gpk + R
  · simp [← valid, (CurvePoint.isOnCurve_normal _).mpr sFinite]
  · have differ : CurvePoint.normal (s • base) ≠ CurvePoint.normal (m • gpk + R) :=
      fun same => valid (CurvePoint.normal_injective same)
    simp [valid, differ]

end SchnorrMpc.SigVerify
