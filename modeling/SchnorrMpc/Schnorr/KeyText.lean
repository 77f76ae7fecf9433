import SchnorrMpc.Crypto.PublicKey
import SchnorrMpc.Lib.Hex

/-!
# Group keys as text

A group key is given as hexadecimal text with a prefix, of the uncompressed
encoding of a point. Bytes that do not encode a point become a nil key.
-/
namespace SchnorrMpc

open Lib

namespace Hexutil

def errEmptyString : Err := .new (utf8 "empty hex string")

def errSyntax : Err := .new (utf8 "invalid hex string")

def errMissingPrefix : Err := .new (utf8 "hex string without 0x prefix")

def errOddLength : Err := .new (utf8 "hex string of odd length")

/-- `0x` or `0X`. -/
def has0xPrefix : Bytes → Bool
  | zero :: x :: _ => zero == 48 && (x == 120 || x == 88)
  | _ => false

def mapError : HexError → Err
  | .invalidByte _ => errSyntax
  | .oddLength => errOddLength

def decode (input : Bytes) : Go Bytes :=
  if input.length = 0 then .err errEmptyString
  else if !has0xPrefix input then .err errMissingPrefix
  else
    match hexDecode (input.drop 2) with
    | .ok b => .ok b
    | .error error => .err (mapError error)

def encode (b : Bytes) : Bytes := utf8 "0x" ++ hexEncode b

theorem lowerCase_eq_48_iff (char : UInt8) : lowerCase char = 48 ↔ char = 48 := by
  simp only [lowerCase, ← UInt8.toNat_inj]
  split
  · simp only [UInt8.toNat_add, UInt8.reduceToNat]
    omega
  · rfl

private theorem lowerCase_eq_120_iff (char : UInt8) :
    lowerCase char = 120 ↔ char = 120 ∨ char = 88 := by
  simp only [lowerCase, ← UInt8.toNat_inj]
  split
  · simp only [UInt8.toNat_add, UInt8.reduceToNat]
    omega
  · simp only [UInt8.reduceToNat]
    omega

theorem has0xPrefix_iff (zero x : UInt8) (rest : Bytes) :
    has0xPrefix (zero :: x :: rest) = true ↔ [zero, x].map lowerCase = utf8 "0x" := by
  have text : utf8 "0x" = [48, 120] := by decide
  simp [has0xPrefix, text, lowerCase_eq_48_iff, lowerCase_eq_120_iff]

theorem decode_eq_ok_iff (input b : Bytes) :
    decode input = .ok b ↔ input.map lowerCase = encode b := by
  have text : utf8 "0x" = [48, 120] := by decide
  match input with
  | [] => simp [decode, encode, text]
  | [_] => simp [decode, encode, text, has0xPrefix]
  | zero :: x :: rest =>
    have start : (zero :: x :: rest).map lowerCase = encode b ↔
        has0xPrefix (zero :: x :: rest) = true ∧ hexDecode rest = .ok b := by
      rw [has0xPrefix_iff, hexDecode_eq_ok_iff, encode, text]
      simp [and_assoc]
    rw [start, decode, if_neg (by simp)]
    cases has0xPrefix (zero :: x :: rest) with
    | false => simp
    | true =>
      simp only [Bool.not_true, Bool.false_eq_true, if_false, List.drop_succ_cons, List.drop_zero,
        true_and]
      cases hexDecode rest <;> simp

theorem lowerCase_encode (b : Bytes) : (encode b).map lowerCase = encode b := by
  have digits : (hexEncode b).map lowerCase = hexEncode b :=
    (hexDecode_eq_ok_iff _ _).mp (hexDecode_hexEncode b)
  have start : (utf8 "0x").map lowerCase = utf8 "0x" := by decide
  rw [encode, List.map_append, start, digits]

theorem decode_ne_panic (input : Bytes) : decode input ≠ .panic := by
  unfold decode
  split
  · simp
  · split
    · simp
    · split <;> simp

end Hexutil

def pkToHexString (pk : Point) : Go Bytes := do
  let pkByte ← fromECDSAPub pk
  pure (Hexutil.encode pkByte)

/-- Bytes without a point give a nil key and no error. -/
def stringtoPk (str : Bytes) : Go Point := do
  let pkBytes ← Hexutil.decode str
  pure (toECDSAPub pkBytes)

/-! ### Encodings of points -/

/-- The uncompressed encoding of a point of the curve. -/
structure EncodesPoint (pub : Bytes) (point : Int × Int) : Prop where
  onCurve : OnCurve point
  encoded : pub = 4 :: (bePad 32 point.1.natAbs ++ bePad 32 point.2.natAbs)

namespace EncodesPoint

variable {pub : Bytes} {point : Int × Int}

theorem length (encodes : EncodesPoint pub point) : pub.length = pkLength := by
  rw [encodes.encoded]
  simp [pkLength]

theorem fromECDSAPub (encodes : EncodesPoint pub point) :
    SchnorrMpc.fromECDSAPub (some point) = .ok pub := by
  obtain ⟨xFits, yFits⟩ := encodes.onCurve.natAbs_lt
  rw [encodes.encoded]
  exact fromECDSAPub_eq xFits yFits

end EncodesPoint

/-- Exactly the encodings of points are read. -/
theorem toECDSAPub_eq_some_iff (pub : Bytes) (point : Int × Int) :
    toECDSAPub pub = some point ↔ EncodesPoint pub point := by
  constructor
  · intro decoded
    refine ⟨onCurve_of_toECDSAPub decoded, ?_⟩
    unfold toECDSAPub unmarshal at decoded
    split at decoded
    · cases decoded
    next length =>
      rw [not_not] at length
      split at decoded
      · cases decoded
      next form =>
        dsimp only at decoded
        split at decoded
        · cases decoded
        · split at decoded
          next =>
            cases decoded
            rw [not_not] at form
            obtain ⟨tail, rfl⟩ := List.head?_eq_some_iff.mp form
            have size : tail.length = 64 := by simpa using length
            -- each half of the rest is the padded form of its number
            have left := bePad_beNat (tail.take 32)
            have right := bePad_beNat (tail.drop 32)
            rw [List.length_take, size, show min 32 64 = 32 from rfl] at left
            rw [List.length_drop, size] at right
            simp only [List.drop_succ_cons, List.drop_zero, Int.natAbs_natCast, left]
            rw [right, List.take_append_drop]
          next => cases decoded
  · intro encodes
    obtain ⟨encoded, encodes', -, decodes⟩ := toECDSAPub_fromECDSAPub encodes.onCurve
    cases encodes.fromECDSAPub.symm.trans encodes'
    exact decodes

end SchnorrMpc
