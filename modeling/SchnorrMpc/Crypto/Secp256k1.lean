import SchnorrMpc.Protocol.Error
import SchnorrMpc.Lib.Primality
import Mathlib.Tactic.NormNum.Prime
import Mathlib.Tactic.Linarith
import Mathlib.Data.Int.GCD

/-!
# The curve secp256k1

The parameters of `S256`, and the operations of `BitCurve` as the node calls
them. The scalar multiplication of libsecp256k1 is a parameter; around it the
model keeps the padding of the scalar, the truncation of the coordinates to 32
bytes, and the scalars the C wrapper refuses.
-/
namespace SchnorrMpc

open Lib

namespace S256

/-- The order of the underlying field. -/
def P : Nat := 0xFFFFFFFFFFFFFFFFFFFFFFFFFFFFFFFFFFFFFFFFFFFFFFFFFFFFFFFEFFFFFC2F

/-- The order of the base point. -/
def N : Nat := 0xFFFFFFFFFFFFFFFFFFFFFFFFFFFFFFFEBAAEDCE6AF48A03BBFD25E8CD0364141

def B : Nat := 7

def Gx : Nat := 0x79BE667EF9DCBBAC55A06295CE870B07029BFCDB2DCE28D959F2815B16F81798

def Gy : Nat := 0x483ADA7726A3C4655DA4FBFC0E1108A8FD17B448A68554199C47D08FFB10D4B8

private theorem prime_297159362677 : Nat.Prime 297159362677 := by
  refine prime_of_lucasTest _ 2 [2, 2, 3, 3, 11, 461, 1627771] ?_ (by decide +kernel)
  simp only [List.forall_mem_cons]
  norm_num

private theorem prime_545358713 : Nat.Prime 545358713 := by
  refine prime_of_lucasTest _ 5 [2, 2, 2, 41, 59, 28181] ?_ (by decide +kernel)
  simp only [List.forall_mem_cons]
  norm_num

private theorem prime_44706919 : Nat.Prime 44706919 := by
  refine prime_of_lucasTest _ 6 [2, 3, 797, 9349] ?_ (by decide +kernel)
  simp only [List.forall_mem_cons]
  norm_num

private theorem prime_29047611873442575647497758179 :
    Nat.Prime 29047611873442575647497758179 := by
  refine prime_of_lucasTest _ 2 [2, 293, 305873, 545358713, 297159362677] ?_ (by decide +kernel)
  simp only [List.forall_mem_cons, prime_297159362677, prime_545358713]
  norm_num

private theorem prime_341948486974166000522343609283189 :
    Nat.Prime 341948486974166000522343609283189 := by
  refine prime_of_lucasTest _ 2 [2, 2, 3, 3, 3, 109, 29047611873442575647497758179] ?_
    (by decide +kernel)
  simp only [List.forall_mem_cons, prime_29047611873442575647497758179]
  norm_num

private theorem prime_174723607534414371449 : Nat.Prime 174723607534414371449 := by
  refine prime_of_lucasTest _ 3 [2, 2, 2, 17, 59, 4051, 120233, 44706919] ?_ (by decide +kernel)
  simp only [List.forall_mem_cons, prime_44706919]
  norm_num

private theorem prime_107361793816595537 : Nat.Prime 107361793816595537 := by
  refine prime_of_lucasTest _ 3 [2, 2, 2, 2, 16699, 85831, 4681609] ?_ (by decide +kernel)
  simp only [List.forall_mem_cons]
  norm_num

theorem N_prime : Nat.Prime N := by
  refine prime_of_lucasTest N 7 [2, 2, 2, 2, 2, 2, 3, 149, 631, 107361793816595537,
    174723607534414371449, 341948486974166000522343609283189] ?_ (by decide +kernel)
  simp only [List.forall_mem_cons, prime_341948486974166000522343609283189,
    prime_174723607534414371449, prime_107361793816595537]
  norm_num

instance : Fact (Nat.Prime N) := ⟨N_prime⟩

instance : NeZero N := ⟨N_prime.ne_zero⟩

end S256

/-- A point as the code holds it: two coordinates, or two nil pointers. -/
abbrev Point := Option (Int × Int)

/-- The two curve operations that the protocol calls. -/
structure Curve where
  scalarMult : Point → Bytes → Go Point
  add : Point → Point → Go Point

/-- The base point. -/
def S256.G : Point := some ((Gx : Int), (Gy : Int))

/-- Twice and three times the base point. -/
def S256.double : Int × Int :=
  (0xc6047f9441ed7d6d3045406e95c07cd85c778e4b8cef3ca7abac09b95c709ee5,
    0x1ae168fea63dc339a3c58419466ceaeef7f632653266d0e1236431a950cfe52a)

def S256.triple : Int × Int :=
  (0xf9308a019258c31049344f85f89d5229b531c845836f99b08601f113bce036f9,
    0x388f7b0f632de8140fe337e62a37f3566500a99934c2231b6cb9fd7584b8e672)

/-- Coordinates of 32 bytes. -/
def Ranged (point : Point) : Prop :=
  ∀ x y, point = some (x, y) → (0 ≤ x ∧ x < 256 ^ 32) ∧ 0 ≤ y ∧ y < 256 ^ 32

/-- Whatever the operations are given, they return coordinates of 32 bytes. -/
structure Curve.KeepsRange (curve : Curve) : Prop where
  scalarMult : ∀ point k result, curve.scalarMult point k = .ok result → Ranged result
  add : ∀ left right result, curve.add left right = .ok result → Ranged result

def Curve.scalarBaseMult (curve : Curve) (k : Bytes) : Go Point :=
  curve.scalarMult S256.G k

/-- `big.Int.Bytes`: the absolute value, without leading zeros. -/
def intBytes (z : Int) : Bytes := natBytes z.natAbs

/-- `big.Int.ModInverse`: the inverse in `[0, n)`, or nil when there is none. -/
def modInverse (g n : Int) : Option Int :=
  if Int.gcd g n = 1 then some (Int.gcdA g n % n) else none

/-- `secp256k1_ecmult_const` on the coordinates of a point and a scalar. -/
abbrev Ecmult := BitVec 256 → BitVec 256 → Nat → BitVec 256 × BitVec 256

namespace BitCurve

open S256

/-- Reverses the Jacobian transform. A `z` without an inverse leaves `zinv` nil. -/
def affineFromJacobian (x y z : Int) : Go Point :=
  match modInverse z P with
  | none => .panic
  | some zinv =>
    let zinvsq := zinv * zinv
    let xOut := x * zinvsq % P
    let zinvcb := zinvsq * zinv
    let yOut := y * zinvcb % P
    .ok (some (xOut, yOut))

/-- `h.Sub(..)` followed by the correction of a negative difference. -/
def subMod (a b : Int) : Int :=
  if a - b < 0 then a - b + P else a - b

def addJacobian (x1 y1 z1 x2 y2 z2 : Int) : Int × Int × Int :=
  let z1z1 := z1 * z1 % P
  let z2z2 := z2 * z2 % P
  let u1 := x1 * z2z2 % P
  let u2 := x2 * z1z1 % P
  let h := subMod u2 u1
  let i := (h * 2) * (h * 2)
  let j := h * i
  let s1 := y1 * z2 * z2z2 % P
  let s2 := y2 * z1 * z1z1 % P
  let r := subMod s2 s1 * 2
  let v := u1 * i
  let x3 := (r * r - j - v - v) % P
  let y3 := (r * (v - x3) - s1 * j * 2) % P
  let z3 := subMod (subMod ((z1 + z2) * (z1 + z2)) z1z1) z2z2 * h % P
  (x3, y3, z3)

/-- There is no case for equal points here, and no case for nil coordinates. -/
def add : Point → Point → Go Point
  | some (x1, y1), some (x2, y2) =>
    let (x, y, z) := addJacobian x1 y1 1 x2 y2 1
    affineFromJacobian x y z
  | _, _ => .panic

/-- The C wrapper: a zero scalar and one not below the order are refused. -/
def pubkeyScalarMul (ecmult : Ecmult)
    (x y : BitVec 256) (scalar : Nat) : Option (BitVec 256 × BitVec 256) :=
  if N ≤ scalar ∨ scalar = 0 then none else some (ecmult x y scalar)

/-- Only the low 32 bytes of a coordinate reach the C code. -/
def scalarMult (ecmult : Ecmult)
    (point : Point) (scalar : Bytes) : Go Point :=
  if 32 < scalar.length then .panic
  else
    match point with
    | none => .panic
    | some (baseX, baseY) =>
      match pubkeyScalarMul ecmult (.ofNat 256 baseX.natAbs) (.ofNat 256 baseY.natAbs)
          (beNat scalar) with
      | none => .ok none
      | some (x, y) => .ok (some (x.toNat, y.toNat))

/-- The operations of `crypto.S256()`, over libsecp256k1's multiplication. -/
def curve (ecmult : Ecmult) : Curve where
  scalarMult := scalarMult ecmult
  add := add

def isOnCurve (x y : Int) : Bool :=
  (x * x * x + B) % P == y * y % P

theorem scalarMult_ranged {ecmult : Ecmult}
    {point result : Point} {scalar : Bytes}
    (returned : scalarMult ecmult point scalar = .ok result) : Ranged result := by
  unfold scalarMult at returned
  split at returned
  · cases returned
  · split at returned
    · cases returned
    · split at returned
      next => cases returned; intro x y same; cases same
      next a b _ =>
        cases returned
        intro x y same
        cases same
        have aLt := a.isLt
        have bLt := b.isLt
        constructor <;> omega

theorem add_ranged {left right result : Point} (returned : add left right = .ok result) :
    Ranged result := by
  unfold add at returned
  split at returned
  · simp only [affineFromJacobian] at returned
    split at returned
    · cases returned
    · cases returned
      intro x y same
      cases same
      have field : (0 : Int) < P ∧ (P : Int) < 256 ^ 32 := by decide
      constructor
      · exact ⟨Int.emod_nonneg _ field.1.ne', (Int.emod_lt_of_pos _ field.1).trans field.2⟩
      · exact ⟨Int.emod_nonneg _ field.1.ne', (Int.emod_lt_of_pos _ field.1).trans field.2⟩
  · cases returned

theorem keepsRange (ecmult : Ecmult) :
    (curve ecmult).KeepsRange where
  scalarMult _ _ _ := scalarMult_ranged
  add _ _ _ := add_ranged

end BitCurve

theorem modInverse_mul {g n inverse : Int} (found : modInverse g n = some inverse) :
    g * inverse % n = 1 % n := by
  unfold modInverse at found
  split at found
  next coprime =>
    cases found
    have bezout := Int.gcd_eq_gcd_ab g n
    rw [coprime] at bezout
    rw [Int.mul_emod, Int.emod_emod, ← Int.mul_emod]
    have : g * Int.gcdA g n = 1 + n * -Int.gcdB g n := by push_cast at bezout; linarith
    rw [this, Int.add_mul_emod_self_left]
  · cases found

theorem modInverse_range {g n inverse : Int} (positive : 0 < n)
    (found : modInverse g n = some inverse) : 0 ≤ inverse ∧ inverse < n := by
  unfold modInverse at found
  split at found
  · cases found
    exact ⟨Int.emod_nonneg _ positive.ne', Int.emod_lt_of_pos _ positive⟩
  · cases found

end SchnorrMpc
