import SchnorrMpc.Crypto.CurveGroup

/-!
# The verifier on Wanchain

`SchnorrVerifier.sol`, over the operations of the contract `secp256k1`. They
return the point at infinity as two zeros.
-/
namespace SchnorrMpc.SigVerify

open Lib S256

/-- The contract `secp256k1`. -/
structure Secp256k1Contract where
  ecmul : Nat → Nat → Nat → Nat × Nat
  ecadd : Nat → Nat → Nat → Nat → Nat × Nat

/-- A point as the contracts pass it: two words, both zero at infinity. -/
def words (Q : Group) : Nat × Nat := (ShortWeierstrass.coords Q).getD (0, 0)

/-- The contract's arithmetic computes the group law. -/
structure Secp256k1Contract.Law (curve : Secp256k1Contract) : Prop where
  ecmul : ∀ (Q : Group) (scalar : Nat), scalar < 2 ^ 256 →
    curve.ecmul (words Q).1 (words Q).2 scalar = words (scalar • Q)
  ecadd : ∀ Q R : Group,
    curve.ecadd (words Q).1 (words Q).2 (words R).1 (words R).2 = words (Q + R)

namespace SchnorrVerifier

variable (sha256 : Bytes → Bytes32) (curve : Secp256k1Contract)

/-- The arguments are packed without padding: a word, one byte, two words. -/
def h (m : Bytes32) (a b : Nat) : Nat :=
  beNat (sha256 (m.val ++ 4 :: (bePad 32 a ++ bePad 32 b))).val

def cmul (p : Nat × Nat) (scalar : Nat) : Nat × Nat := curve.ecmul p.1 p.2 scalar

def sg (sig_s : Nat) : Nat × Nat := curve.ecmul Gx Gy sig_s

def cadd (a b : Nat × Nat) : Nat × Nat := curve.ecadd a.1 a.2 b.1 b.2

def verify (signature groupKeyX groupKeyY randomPointX randomPointY message : Bytes32) : Bool :=
  let groupKey := (beNat groupKeyX.val, beNat groupKeyY.val)
  let randomPoint := (beNat randomPointX.val, beNat randomPointY.val)
  let hash := h sha256 message randomPoint.1 randomPoint.2
  let left := sg curve (beNat signature.val)
  let rightPart := cmul curve groupKey hash
  let right := cadd curve randomPoint rightPart
  left.1 == right.1 && left.2 == right.2

end SchnorrVerifier

@[simp] theorem words_zero : words 0 = (0, 0) := rfl

theorem words_ne_zero {Q : Group} (finite : Q ≠ 0) : words Q ≠ (0, 0) := by
  cases Q with
  | zero => exact absurd rfl finite
  | some x y nonsingular =>
    intro zeros
    simp only [words, ShortWeierstrass.coords_some, Option.getD_some, Prod.mk.injEq,
      ZMod.val_eq_zero] at zeros
    have equation := (ShortWeierstrass.equation_iff x y).mp nonsingular.1
    rw [zeros.1, zeros.2, zero_pow two_ne_zero, zero_pow three_ne_zero, zero_add, eq_comm,
      ShortWeierstrass.cast_eq_zero_iff (by decide +kernel)] at equation
    exact absurd equation (by decide)

theorem words_injective : Function.Injective words := by
  intro Q R same
  by_cases left : Q = 0
  · by_contra different
    subst left
    exact words_ne_zero (Ne.symm different) same.symm
  · by_cases right : R = 0
    · subst right
      exact absurd same (words_ne_zero left)
    · obtain ⟨xy, isQ⟩ := coords_of_ne_zero left
      obtain ⟨xy', isR⟩ := coords_of_ne_zero right
      apply ShortWeierstrass.coords_injective
      rw [words, words, isQ, isR] at same
      rw [isQ, isR]
      exact congrArg some same

theorem words_base : words base = (Gx, Gy) := by
  simp only [words, base, ShortWeierstrass.coords_some, Option.getD_some, ZMod.val_natCast]
  rw [Nat.mod_eq_of_lt (show Gx < P by decide +kernel),
    Nat.mod_eq_of_lt (show Gy < P by decide +kernel)]

/-- On points of the curve the contract decides the equation of the signature. -/
theorem SchnorrVerifier.verify_iff {sha256 : Bytes → Bytes32} {curve : Secp256k1Contract}
    (law : curve.Law) {gpk R : Group}
    {signature groupKeyX groupKeyY randomPointX randomPointY : Bytes32} (message : Bytes32)
    (isKey : words gpk = (beNat groupKeyX.val, beNat groupKeyY.val))
    (isR : words R = (beNat randomPointX.val, beNat randomPointY.val)) :
    verify sha256 curve signature groupKeyX groupKeyY randomPointX randomPointY message = true ↔
      beNat signature.val • base = R + beNat (sha256 (message.val ++
        4 :: (randomPointX.val ++ randomPointY.val))).val • gpk := by
  have packed : h sha256 message (beNat randomPointX.val) (beNat randomPointY.val) =
      beNat (sha256 (message.val ++ 4 :: (randomPointX.val ++ randomPointY.val))).val := by
    have x := bePad_beNat randomPointX.val
    have y := bePad_beNat randomPointY.val
    rw [randomPointX.property] at x
    rw [randomPointY.property] at y
    rw [h, x, y]
  have hashLt := beNat_val_lt (sha256 (message.val ++ 4 :: (randomPointX.val ++ randomPointY.val)))
  have left : sg curve (beNat signature.val) = words (beNat signature.val • base) := by
    have multiple := law.ecmul base (beNat signature.val) (beNat_val_lt signature)
    rwa [words_base] at multiple
  have part := law.ecmul gpk _ hashLt
  rw [isKey] at part
  have sum := law.ecadd R (beNat (sha256 (message.val ++
    4 :: (randomPointX.val ++ randomPointY.val))).val • gpk)
  rw [isR] at sum
  simp only [verify, packed, left, cmul, cadd, part, sum, Bool.and_eq_true, beq_iff_eq]
  rw [← words_injective.eq_iff, Prod.ext_iff]

end SchnorrMpc.SigVerify
