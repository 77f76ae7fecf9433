import SchnorrMpc.Crypto.PublicKey
import Mathlib.Data.ZMod.Basic
import Mathlib.Algebra.Module.Basic
import Mathlib.Algebra.Field.ZMod

/-!
# Curve operations as the group law

What the protocol expects of its two curve operations: they compute in a
commutative group of exponent `N`, on the affine coordinates of its elements.
The neutral element is the one without coordinates. Coordinates that belong to
no element are left unconstrained.
-/
namespace SchnorrMpc

open Lib S256

structure GroupLaw (curve : Curve) (E : Type) [AddCommGroup E] [Module (ZMod N) E] where
  coords : E → Point
  base : E
  coords_injective : Function.Injective coords
  coords_zero : coords 0 = none
  coords_base : coords base = G
  /-- No point of the curve has a zero coordinate. -/
  coords_range : ∀ Q x y, coords Q = some (x, y) → 0 < x ∧ x < P ∧ 0 < y ∧ y < P
  scalarMult : ∀ Q (k : Bytes), k.length ≤ 32 →
    curve.scalarMult (coords Q) k = .ok (coords ((beNat k : ZMod N) • Q))
  add : ∀ Q R, curve.add (coords Q) (coords R) = .ok (coords (Q + R))

/-- The law of a curve that multiplies points by reduced scalars, and whose addition has the
right result when it has one. -/
structure CurveLaw (curve : Curve) (E : Type) [AddCommGroup E] [Module (ZMod N) E] where
  coords : E → Point
  base : E
  coords_base : coords base = G
  coords_nonneg : ∀ Q x y, coords Q = some (x, y) → 0 ≤ x ∧ 0 ≤ y
  scalarMult : ∀ Q (k : Nat), coords Q ≠ none → k < N →
    curve.scalarMult (coords Q) (natBytes k) = .ok (coords ((k : ZMod N) • Q))
  add : ∀ Q R point, curve.add (coords Q) (coords R) = .ok point → point = coords (Q + R)

namespace CurveLaw

variable {curve : Curve} {E : Type} [AddCommGroup E] [Module (ZMod N) E] (law : CurveLaw curve E)

theorem scalarMult_int {Q : E} (finite : law.coords Q ≠ none) {k : Int} (nonneg : 0 ≤ k)
    (small : k < N) :
    curve.scalarMult (law.coords Q) (intBytes k) = .ok (law.coords ((k : ZMod N) • Q)) := by
  obtain ⟨n, rfl⟩ := Int.eq_ofNat_of_zero_le nonneg
  rw [Int.cast_natCast]
  exact law.scalarMult Q n finite (Int.ofNat_lt.mp small)

theorem scalarBaseMult_int {k : Int} (nonneg : 0 ≤ k) (small : k < N) :
    curve.scalarBaseMult (intBytes k) = .ok (law.coords ((k : ZMod N) • law.base)) := by
  rw [Curve.scalarBaseMult, ← law.coords_base]
  exact law.scalarMult_int (by simp [law.coords_base, G]) nonneg small

end CurveLaw

namespace GroupLaw

variable {curve : Curve} {E : Type} [AddCommGroup E] [Module (ZMod N) E] (law : GroupLaw curve E)

include law in
theorem base_ne_zero : law.base ≠ 0 := by
  intro zero
  have coords := law.coords_base
  rw [zero, law.coords_zero] at coords
  cases coords

theorem smul_base_eq_zero_iff (k : ZMod N) : k • law.base = 0 ↔ k = 0 := by
  rw [smul_eq_zero_iff_left law.base_ne_zero]

theorem coords_eq_none_iff (Q : E) : law.coords Q = none ↔ Q = 0 := by
  rw [← law.coords_zero]
  exact law.coords_injective.eq_iff

theorem exists_coords {Q : E} (finite : Q ≠ 0) : ∃ x y, law.coords Q = some (x, y) := by
  cases found : law.coords Q with
  | none => exact absurd ((law.coords_eq_none_iff Q).mp found) finite
  | some point => exact ⟨point.1, point.2, rfl⟩

theorem scalarMult_int (Q : E) {k : Int} (nonneg : 0 ≤ k) (fits : k < 256 ^ 32) :
    curve.scalarMult (law.coords Q) (intBytes k) = .ok (law.coords ((k : ZMod N) • Q)) := by
  have small : k.natAbs < 256 ^ 32 := by omega
  have width : (intBytes k).length ≤ 32 := by
    rw [intBytes, length_natBytes]
    exact byteLen_le small
  rw [law.scalarMult Q _ width, intBytes, beNat_natBytes]
  have cast : ((k.natAbs : Nat) : ZMod N) = (k : ZMod N) := by
    rw [← Int.cast_natCast, Int.natAbs_of_nonneg nonneg]
  rw [cast]

theorem scalarBaseMult_int {k : Int} (nonneg : 0 ≤ k) (fits : k < 256 ^ 32) :
    curve.scalarBaseMult (intBytes k) = .ok (law.coords ((k : ZMod N) • law.base)) := by
  rw [Curve.scalarBaseMult, ← law.coords_base]
  exact law.scalarMult_int law.base nonneg fits

def curveLaw : CurveLaw curve E where
  coords := law.coords
  base := law.base
  coords_base := law.coords_base
  coords_nonneg Q x y found := by
    obtain ⟨xPos, -, yPos, -⟩ := law.coords_range Q x y found
    exact ⟨xPos.le, yPos.le⟩
  scalarMult Q k _ small := by
    have wide : N < 256 ^ 32 := by decide
    exact law.scalarMult_int Q (Int.natCast_nonneg k) (by exact_mod_cast small.trans wide)
  add Q R point returned := (Outcome.ok.inj ((law.add Q R).symm.trans returned)).symm

theorem fromECDSAPub_coords {Q : E} {x y : Int} (found : law.coords Q = some (x, y)) :
    fromECDSAPub (law.coords Q) = .ok (4 :: (bePad 32 x.natAbs ++ bePad 32 y.natAbs)) := by
  obtain ⟨xPos, xLt, yPos, yLt⟩ := law.coords_range Q x y found
  have bound : (P : Int) < 256 ^ 32 := by decide
  rw [found]
  exact fromECDSAPub_eq (by omega) (by omega)

theorem exists_encoding (Q : E) : ∃ bytes, fromECDSAPub (law.coords Q) = .ok bytes := by
  by_cases infinite : Q = 0
  · exact ⟨[], by rw [infinite, law.coords_zero]; rfl⟩
  · obtain ⟨x, y, found⟩ := law.exists_coords infinite
    exact ⟨_, law.fromECDSAPub_coords found⟩

end GroupLaw
end SchnorrMpc
