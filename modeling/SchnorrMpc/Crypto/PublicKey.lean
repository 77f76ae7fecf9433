import SchnorrMpc.Crypto.Secp256k1

/-! Public keys on the wire and in key files, and the addresses made from them. -/
namespace SchnorrMpc

open Lib

/-- The functions of other packages that a node is built with. -/
structure Env where
  curve : Curve
  sha256 : Bytes → Bytes32
  keccak256 : Bytes → Bytes32

/-- `elliptic.Marshal` behind a nil check. A nil key has no encoding. -/
def fromECDSAPub : Point → Go Bytes
  | none => .ok []
  | some (x, y) => do
    let ret : Bytes := 4 :: List.replicate 64 0
    let xBytes := intBytes x
    let ret ← copyAt ret (33 - xBytes.length) xBytes
    let yBytes := intBytes y
    copyAt ret (65 - yBytes.length) yBytes

/-- `elliptic.Unmarshal`: only the uncompressed form of a point on the curve is read. -/
def unmarshal (data : Bytes) : Point :=
  if data.length ≠ 65 then none
  else if data.head? ≠ some 4 then none
  else
    let x := beNat ((data.drop 1).take 32)
    let y := beNat (data.drop 33)
    if S256.P ≤ x ∨ S256.P ≤ y then none
    else if BitCurve.isOnCurve x y then some (x, y) else none

def toECDSAPub (pub : Bytes) : Point :=
  if pub.length ≠ 65 then none else unmarshal pub

abbrev Address := Bytes

/-- The last 20 bytes of the digest of both coordinates; slicing a nil encoding panics. -/
def pubkeyToAddress (env : Env) (point : Point) : Go Address := do
  let pubBytes ← fromECDSAPub point
  if pubBytes.length < 1 then .panic
  else .ok ((env.keccak256 (pubBytes.drop 1)).val.drop 12)

def pkLength : Nat := 65

/-- The key is not checked between decoding and use, so a bad encoding is dereferenced. -/
def pkToAddress (env : Env) (pkBytes : Bytes) : Go Address :=
  if pkBytes.length ≠ pkLength then .err (.new (utf8 "invalid pk address"))
  else
    match toECDSAPub pkBytes with
    | none => .panic
    | some point => pubkeyToAddress env (some point)

theorem fromECDSAPub_eq {x y : Int} (xFits : x.natAbs < 256 ^ 32) (yFits : y.natAbs < 256 ^ 32) :
    fromECDSAPub (some (x, y)) = .ok (4 :: (bePad 32 x.natAbs ++ bePad 32 y.natAbs)) := by
  have xLen := byteLen_le xFits
  have yLen := byteLen_le yFits
  have xPad := replicate_append_bePad (32 - byteLen x.natAbs) (byteLen x.natAbs) x.natAbs
    (lt_pow_byteLen _)
  have yPad := replicate_append_bePad (32 - byteLen y.natAbs) (byteLen y.natAbs) y.natAbs
    (lt_pow_byteLen _)
  rw [Nat.sub_add_cancel xLen] at xPad
  rw [Nat.sub_add_cancel yLen] at yPad
  have xOff : ((33 : Int) - ((intBytes x).length : Nat)) =
      ((33 - byteLen x.natAbs : Nat) : Int) := by
    simp only [intBytes, length_natBytes]; omega
  have yOff : ((65 : Int) - ((intBytes y).length : Nat)) =
      ((65 - byteLen y.natAbs : Nat) : Int) := by
    simp only [intBytes, length_natBytes]; omega
  -- The first copy fills bytes 1 to 32, the second bytes 33 to 64.
  have first :
      (copyAt (4 :: List.replicate 64 0) (33 - byteLen x.natAbs : Nat) (intBytes x) : Go Bytes) =
        .ok (4 :: (bePad 32 x.natAbs ++ List.replicate 32 0)) := by
    rw [copyAt_ok (by simp; omega)]
    have head : 33 - byteLen x.natAbs = (32 - byteLen x.natAbs) + 1 := by omega
    have rest : 33 - byteLen x.natAbs + (intBytes x).length = 32 + 1 := by
      simp only [intBytes, length_natBytes]; omega
    rw [rest, head]
    simp only [List.take_succ_cons, List.drop_succ_cons, List.take_replicate, List.drop_replicate,
      List.length_cons, List.length_replicate, List.cons_append]
    rw [List.take_of_length_le (by simp only [intBytes, length_natBytes]; omega)]
    rw [show min (32 - byteLen x.natAbs) 64 = 32 - byteLen x.natAbs by omega]
    rw [← xPad]
    rfl
  have second : (copyAt (4 :: (bePad 32 x.natAbs ++ List.replicate 32 0))
      (65 - byteLen y.natAbs : Nat) (intBytes y) : Go Bytes)
      = .ok (4 :: (bePad 32 x.natAbs ++ bePad 32 y.natAbs)) := by
    rw [copyAt_ok (by simp)]
    have head : 65 - byteLen y.natAbs = (32 + (32 - byteLen y.natAbs)) + 1 := by omega
    have rest : 65 - byteLen y.natAbs + (intBytes y).length = 64 + 1 := by
      simp only [intBytes, length_natBytes]; omega
    rw [rest, head]
    simp only [List.take_succ_cons, List.drop_succ_cons, List.cons_append]
    rw [List.take_append, List.take_of_length_le (by simp), length_bePad, Nat.add_sub_cancel_left,
      List.take_replicate, show min (32 - byteLen y.natAbs) 32 = 32 - byteLen y.natAbs by omega,
      List.drop_of_length_le (by simp), List.append_nil, List.append_assoc,
      List.take_of_length_le (by simp [intBytes]; omega), ← yPad]
    rfl
  rw [fromECDSAPub]
  simp only [xOff, yOff, first, second, Outcome.ok_bind]

theorem fromECDSAPub_injective {x y x' y' : Int} (xFits : x.natAbs < 256 ^ 32)
    (yFits : y.natAbs < 256 ^ 32) (xFits' : x'.natAbs < 256 ^ 32) (yFits' : y'.natAbs < 256 ^ 32)
    (same : fromECDSAPub (some (x, y)) = fromECDSAPub (some (x', y'))) :
    x.natAbs = x'.natAbs ∧ y.natAbs = y'.natAbs := by
  rw [fromECDSAPub_eq xFits yFits, fromECDSAPub_eq xFits' yFits', Outcome.ok.injEq,
    List.cons.injEq] at same
  obtain ⟨left, right⟩ := List.append_inj same.2 (by simp)
  constructor
  · rw [← beNat_bePad_of_lt xFits, left, beNat_bePad_of_lt xFits']
  · rw [← beNat_bePad_of_lt yFits, right, beNat_bePad_of_lt yFits']

/-- Coordinates that decoding accepts. -/
structure OnCurve (point : Int × Int) : Prop where
  x_nonneg : 0 ≤ point.1
  x_lt : point.1 < S256.P
  y_nonneg : 0 ≤ point.2
  y_lt : point.2 < S256.P
  equation : BitCurve.isOnCurve point.1 point.2 = true

theorem OnCurve.natAbs_lt {point : Int × Int} (onCurve : OnCurve point) :
    point.1.natAbs < 256 ^ 32 ∧ point.2.natAbs < 256 ^ 32 := by
  obtain ⟨x, y⟩ := point
  obtain ⟨xNonneg, xLt, yNonneg, yLt, -⟩ := onCurve
  have bound : S256.P < 256 ^ 32 := by norm_num [S256.P]
  constructor
  · exact lt_trans (by simp only at xNonneg xLt ⊢; omega) bound
  · exact lt_trans (by simp only at yNonneg yLt ⊢; omega) bound

theorem toECDSAPub_fromECDSAPub {point : Int × Int} (onCurve : OnCurve point) :
    ∃ encoded, fromECDSAPub (some point) = .ok encoded ∧ encoded.length = 65 ∧
      toECDSAPub encoded = some point := by
  obtain ⟨xFits, yFits⟩ := onCurve.natAbs_lt
  obtain ⟨x, y⟩ := point
  refine ⟨_, fromECDSAPub_eq xFits yFits, by simp, ?_⟩
  obtain ⟨xNonneg, xLt, yNonneg, yLt, equation⟩ := onCurve
  simp only at xNonneg xLt yNonneg yLt equation xFits yFits
  have xCast : ((x.natAbs : Nat) : Int) = x := Int.natAbs_of_nonneg xNonneg
  have yCast : ((y.natAbs : Nat) : Int) = y := Int.natAbs_of_nonneg yNonneg
  have xRead : beNat ((bePad 32 x.natAbs ++ bePad 32 y.natAbs).take 32) = x.natAbs := by
    rw [List.take_append_of_le_length (by simp), List.take_of_length_le (by simp),
      beNat_bePad_of_lt xFits]
  have yRead : beNat ((bePad 32 x.natAbs ++ bePad 32 y.natAbs).drop 32) = y.natAbs := by
    rw [List.drop_append_of_le_length (by simp), List.drop_of_length_le (by simp), List.nil_append,
      beNat_bePad_of_lt yFits]
  have inField : ¬(S256.P ≤ x.natAbs ∨ S256.P ≤ y.natAbs) := by omega
  have length : (4 :: (bePad 32 x.natAbs ++ bePad 32 y.natAbs)).length = 65 := by simp
  rw [toECDSAPub, if_neg (not_not_intro length), unmarshal, if_neg (not_not_intro length),
    List.head?_cons, if_neg (not_not_intro rfl)]
  simp only [List.drop_succ_cons, List.drop_zero, xRead, yRead, if_neg inField, xCast, yCast,
    equation, if_true]

theorem onCurve_of_toECDSAPub {pub : Bytes} {point : Int × Int}
    (decoded : toECDSAPub pub = some point) : OnCurve point := by
  unfold toECDSAPub unmarshal at decoded
  split at decoded
  · cases decoded
  split at decoded
  · cases decoded
  dsimp only at decoded
  split at decoded
  · cases decoded
  next inField =>
    rw [not_or, not_le, not_le] at inField
    split at decoded
    next equation =>
      cases decoded
      exact ⟨by simp, by simpa using inField.1, by simp, by simpa using inField.2, equation⟩
    next => cases decoded

theorem safe_pkToAddress_iff (env : Env) (pkBytes : Bytes) (required : Address → Prop) :
    (pkToAddress env pkBytes).Safe required ↔ (pkBytes.length = pkLength →
      ∃ point, toECDSAPub pkBytes = some point ∧
        ∀ address, pubkeyToAddress env (some point) = .ok address → required address) := by
  unfold pkToAddress
  by_cases length : pkBytes.length = pkLength
  · rw [if_neg (not_not_intro length)]
    cases decoded : toECDSAPub pkBytes with
    | none => simp [length]
    | some point =>
      obtain ⟨encoded, encodes, long, -⟩ :=
        toECDSAPub_fromECDSAPub (onCurve_of_toECDSAPub decoded)
      simp [pubkeyToAddress, encodes, List.ne_nil_of_length_eq_add_one long, length]
  · simp [length]

end SchnorrMpc
