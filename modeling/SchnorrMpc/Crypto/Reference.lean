import SchnorrMpc.Crypto.CurveGroup

/-!
# Point arithmetic that computes

Multiples and sums of points through Jacobian coordinates: a multiplication of
the kind that libsecp256k1 promises, to run the node's curve operations with.
-/
namespace SchnorrMpc

open Lib S256

namespace Reference

/-- The multiple of a point, in affine coordinates. -/
def multiple (point : Option (Nat × Nat)) (k : Nat) : Option (Nat × Nat) :=
  ((ShortWeierstrass.Jacobian.ofAffine point).mul P 256 k).toAffine P

def sum (left right : Option (Nat × Nat)) : Option (Nat × Nat) :=
  ((ShortWeierstrass.Jacobian.ofAffine left).add P (.ofAffine right)).toAffine P

theorem multiple_coords (Q : Group) {k : Nat} (fits : k < 2 ^ 256) :
    multiple (ShortWeierstrass.coords Q) k = ShortWeierstrass.coords (k • Q) :=
  ShortWeierstrass.toAffine_eq two_lt_P
    (ShortWeierstrass.mul_denotes two_lt_P (ShortWeierstrass.ofAffine_denotes Q) 256 k fits)

theorem sum_coords (Q R : Group) :
    sum (ShortWeierstrass.coords Q) (ShortWeierstrass.coords R) =
      ShortWeierstrass.coords (Q + R) :=
  ShortWeierstrass.toAffine_eq two_lt_P
    (ShortWeierstrass.add_denotes two_lt_P (ShortWeierstrass.ofAffine_denotes Q)
      (ShortWeierstrass.ofAffine_denotes R))

def ecmult (x y : BitVec 256) (k : Nat) : BitVec 256 × BitVec 256 :=
  let result := (multiple (some (x.toNat, y.toNat)) k).getD (0, 0)
  (.ofNat 256 result.1, .ofNat 256 result.2)

theorem ecmult_law : BitCurve.EcmultLaw ecmult := by
  intro Q x y k coords positive below
  have finite : Q ≠ 0 := by
    rintro rfl
    cases coords
  have nonzero : k • Q ≠ 0 := by
    rw [ne_eq, nsmul_eq_zero_iff finite]
    exact Nat.not_dvd_of_pos_of_lt positive below
  have field : P < 2 ^ 256 := by decide +kernel
  obtain ⟨xLt, yLt⟩ := coords_lt coords
  obtain ⟨⟨x', y'⟩, found⟩ := coords_of_ne_zero nonzero
  obtain ⟨xLt', yLt'⟩ := coords_lt found
  have value := multiple_coords Q (below.trans (by decide +kernel) : k < 2 ^ 256)
  rw [coords, found] at value
  simp only [ecmult, BitVec.toNat_ofNat, Nat.mod_eq_of_lt (xLt.trans field),
    Nat.mod_eq_of_lt (yLt.trans field), value, Option.getD_some,
    Nat.mod_eq_of_lt (xLt'.trans field), Nat.mod_eq_of_lt (yLt'.trans field), found]

end Reference
end SchnorrMpc
