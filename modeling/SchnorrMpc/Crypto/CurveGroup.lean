import SchnorrMpc.Crypto.GroupLaw
import SchnorrMpc.Lib.ShortWeierstrass
import Mathlib.Algebra.Module.ZMod

/-!
# The group of secp256k1

The points of the curve form a group of order `N`. The addition that the node
runs agrees with it on points with different first coordinates, and has no
result on the others.
-/
namespace SchnorrMpc

open Lib

variable {point : Int × Int} {k : Nat}

namespace S256

private theorem prime_13331831 : Nat.Prime 13331831 := by
  refine prime_of_lucasTest _ 13 [2, 5, 971, 1373] ?_ (by decide +kernel)
  simp only [List.forall_mem_cons]
  norm_num

private theorem prime_173378833005251801 : Nat.Prime 173378833005251801 := by
  refine prime_of_lucasTest _ 6 [2, 2, 2, 5, 5, 2621, 24809, 13331831] ?_ (by decide +kernel)
  simp only [List.forall_mem_cons, prime_13331831]
  norm_num

private theorem prime_22149492674086928081353 : Nat.Prime 22149492674086928081353 := by
  refine prime_of_lucasTest _ 5 [2, 2, 2, 3, 5323, 173378833005251801] ?_ (by decide +kernel)
  simp only [List.forall_mem_cons, prime_173378833005251801]
  norm_num

private theorem prime_132896956044521568488119 : Nat.Prime 132896956044521568488119 := by
  refine prime_of_lucasTest _ 6 [2, 3, 22149492674086928081353] ?_ (by decide +kernel)
  simp only [List.forall_mem_cons, prime_22149492674086928081353]
  norm_num

private theorem prime_107590001 : Nat.Prime 107590001 := by
  refine prime_of_lucasTest _ 3 [2, 2, 2, 2, 5, 5, 5, 5, 7, 29, 53] ?_ (by decide +kernel)
  simp only [List.forall_mem_cons]
  norm_num

private theorem prime_255515944373312847190720520512484175977 :
    Nat.Prime 255515944373312847190720520512484175977 := by
  refine prime_of_lucasTest _ 3 [2, 2, 2, 7, 7, 11, 1627, 2657, 4423, 41201, 96557, 7240687,
    107590001] ?_ (by decide +kernel)
  simp only [List.forall_mem_cons, prime_107590001]
  norm_num

private theorem prime_205115282021455665897114700593932402728804164701536103180137503955397371 :
    Nat.Prime 205115282021455665897114700593932402728804164701536103180137503955397371 := by
  refine prime_of_lucasTest _ 10 [2, 3, 5, 29, 29, 31, 7723, 132896956044521568488119,
    255515944373312847190720520512484175977] ?_ (by decide +kernel)
  simp only [List.forall_mem_cons, prime_132896956044521568488119,
    prime_255515944373312847190720520512484175977]
  norm_num

theorem P_prime : Nat.Prime P := by
  refine prime_of_lucasTest P 3 [2, 3, 7, 13441,
    205115282021455665897114700593932402728804164701536103180137503955397371] ?_
    (by decide +kernel)
  simp only [List.forall_mem_cons,
    prime_205115282021455665897114700593932402728804164701536103180137503955397371]
  norm_num

instance : Fact (Nat.Prime P) := ⟨P_prime⟩

instance : NeZero P := ⟨P_prime.ne_zero⟩

theorem two_lt_P : 2 < P := by norm_num [P]

/-- The points of the curve, infinity included. -/
abbrev Group := (ShortWeierstrass.curve P B).Point

/-- An element of the group as the node holds it. -/
def affine (Q : Group) : Point :=
  (ShortWeierstrass.coords Q).map fun xy => ((xy.1 : Int), (xy.2 : Int))

@[simp] theorem affine_zero : affine 0 = none := rfl

theorem affine_injective : Function.Injective affine := by
  have casts : Function.Injective fun xy : Nat × Nat => ((xy.1 : Int), (xy.2 : Int)) := by
    rintro ⟨x, y⟩ ⟨x', y'⟩ same
    simp only [Prod.mk.injEq, Int.natCast_inj] at same
    rw [same.1, same.2]
  exact (Option.map_injective casts).comp ShortWeierstrass.coords_injective

theorem nonsingular_of_equation {x y : ZMod P} (equation : y ^ 2 = x ^ 3 + (B : ZMod P)) :
    (ShortWeierstrass.curve P B).Nonsingular x y := by
  refine (WeierstrassCurve.Affine.equation_iff_nonsingular_of_Δ_ne_zero ?_).mp
    ((ShortWeierstrass.equation_iff x y).mpr equation)
  have discriminant : (ShortWeierstrass.curve P B).Δ = ((-21168 : Int) : ZMod P) := by
    simp only [WeierstrassCurve.Δ, WeierstrassCurve.b₂, WeierstrassCurve.b₄, WeierstrassCurve.b₆,
      WeierstrassCurve.b₈, ShortWeierstrass.curve, B]
    push_cast
    ring
  rw [discriminant, ne_eq, ZMod.intCast_zmod_eq_zero_iff_dvd]
  decide +kernel

theorem isOnCurve_iff (x y : Int) :
    BitCurve.isOnCurve x y = true ↔ (y : ZMod P) ^ 2 = (x : ZMod P) ^ 3 + (B : ZMod P) := by
  have sides : (x * x * x + B) % P = y * y % P ↔
      ((x * x * x + B : Int) : ZMod P) = ((y * y : Int) : ZMod P) :=
    (ZMod.intCast_eq_intCast_iff' _ _ P).symm
  rw [BitCurve.isOnCurve, beq_iff_eq, sides]
  push_cast
  constructor
  · intro same
    linear_combination -same
  · intro equation
    linear_combination -equation

/-- The element of the group with coordinates that decoding accepts. -/
def ofAffine (point : Int × Int) (onCurve : OnCurve point) : Group :=
  .some point.1 point.2 (nonsingular_of_equation ((isOnCurve_iff _ _).mp onCurve.equation))

theorem coords_ofAffine (onCurve : OnCurve point) :
    ShortWeierstrass.coords (ofAffine point onCurve) = some (point.1.natAbs, point.2.natAbs) := by
  have value (z : Int) (nonneg : 0 ≤ z) (below : z < P) : (z : ZMod P).val = z.natAbs := by
    apply Int.natCast_inj.mp
    rw [ZMod.val_intCast, Int.emod_eq_of_lt nonneg below, Int.natAbs_of_nonneg nonneg]
  rw [ofAffine, ShortWeierstrass.coords_some, value _ onCurve.x_nonneg onCurve.x_lt,
    value _ onCurve.y_nonneg onCurve.y_lt]

theorem affine_ofAffine (onCurve : OnCurve point) :
    affine (ofAffine point onCurve) = some point := by
  rw [affine, coords_ofAffine, Option.map_some, Int.natAbs_of_nonneg onCurve.x_nonneg,
    Int.natAbs_of_nonneg onCurve.y_nonneg]

theorem ofAffine_ne_zero (onCurve : OnCurve point) :
    ofAffine point onCurve ≠ 0 := WeierstrassCurve.Affine.Point.some_ne_zero _

theorem affine_onCurve {Q : Group} (found : affine Q = some point) : OnCurve point := by
  cases Q with
  | zero => cases found
  | some x y h =>
    simp only [affine, ShortWeierstrass.coords_some, Option.map_some, Option.some.injEq] at found
    subst found
    have xLt := ZMod.val_lt x
    have yLt := ZMod.val_lt y
    refine ⟨Int.natCast_nonneg _, Int.ofNat_lt.mpr xLt, Int.natCast_nonneg _,
      Int.ofNat_lt.mpr yLt, ?_⟩
    rw [isOnCurve_iff]
    simpa using (ShortWeierstrass.equation_iff x y).mp h.1

theorem affine_eq_none_iff (Q : Group) : affine Q = none ↔ Q = 0 := by
  rw [← affine_zero]
  exact affine_injective.eq_iff

theorem exists_affine_eq {Q : Group} (finite : Q ≠ 0) : ∃ point, affine Q = some point := by
  cases found : affine Q with
  | none => exact absurd ((affine_eq_none_iff Q).mp found) finite
  | some point => exact ⟨point, rfl⟩

theorem coords_of_ne_zero {Q : Group} (finite : Q ≠ 0) :
    ∃ xy, ShortWeierstrass.coords Q = some xy := by
  cases Q with
  | zero => exact absurd rfl finite
  | some x y h => exact ⟨_, rfl⟩

theorem coords_lt {Q : Group} {x y : Nat} (found : ShortWeierstrass.coords Q = some (x, y)) :
    x < P ∧ y < P := by
  cases Q with
  | zero => cases found
  | some a b nonsingular =>
    cases found
    exact ⟨ZMod.val_lt a, ZMod.val_lt b⟩

/-- The base point. -/
def base : Group := .some (Gx : ZMod P) (Gy : ZMod P) (nonsingular_of_equation (by
  have same := (isOnCurve_iff Gx Gy).mp (by decide +kernel)
  exact_mod_cast same))

theorem affine_base : affine base = G := by
  simp only [affine, base, ShortWeierstrass.coords_some, Option.map_some, ZMod.val_natCast]
  rw [Nat.mod_eq_of_lt (show Gx < P by decide +kernel),
    Nat.mod_eq_of_lt (show Gy < P by decide +kernel)]
  rfl

theorem base_ne_zero : base ≠ 0 := WeierstrassCurve.Affine.Point.some_ne_zero _

private theorem base_order : N • base = 0 := by
  have large := two_lt_P
  have denotes : ShortWeierstrass.Denotes ⟨Gx, Gy, 1⟩ base :=
    ShortWeierstrass.denotes_some rfl rfl
  have multiple := ShortWeierstrass.toAffine_eq large
    (ShortWeierstrass.mul_denotes large denotes 256 N (by decide +kernel))
  have evaluated : (ShortWeierstrass.Jacobian.mul P ⟨Gx, Gy, 1⟩ 256 N).toAffine P = none := by
    decide +kernel
  rw [evaluated, ← ShortWeierstrass.coords_zero] at multiple
  exact ShortWeierstrass.coords_injective multiple.symm

/-- Minus seven is no cube in the field, so no point has a zero second coordinate. -/
private theorem no_order_two (Q : Group) (twice : Q + Q = 0) : Q = 0 := by
  cases Q with
  | zero => rfl
  | some x y h =>
    exfalso
    have opposite := eq_neg_of_add_eq_zero_left twice
    rw [WeierstrassCurve.Affine.Point.neg_some,
      WeierstrassCurve.Affine.Point.some.injEq, ShortWeierstrass.negY_eq] at opposite
    -- a point of order two has y = 0, and its x is a cube root of minus seven
    have two : (2 : ZMod P) ≠ 0 := by
      have := (ShortWeierstrass.cast_eq_zero_iff two_lt_P).not.mpr (two_ne_zero)
      exact_mod_cast this
    have yZero : y = 0 := by
      have double : 2 * y = 0 := by linear_combination opposite.2
      exact (mul_eq_zero.mp double).resolve_left two
    have equation := (ShortWeierstrass.equation_iff x y).mp h.1
    have cube : x ^ 3 = ((P - 7 : Nat) : ZMod P) := by
      rw [yZero] at equation
      rw [Nat.cast_sub (by decide +kernel), ZMod.natCast_self]
      simp only [B] at equation
      push_cast at equation ⊢
      linear_combination -equation
    have nonzero : x ≠ 0 := by
      rintro rfl
      rw [zero_pow three_ne_zero, eq_comm,
        ShortWeierstrass.cast_eq_zero_iff (by decide +kernel)] at cube
      revert cube
      decide +kernel
    -- by Fermat a cube is one in the power (P - 1) / 3, and minus seven is not
    have exponent : x ^ (P - 1) = (((P - 7) ^ ((P - 1) / 3) : Nat) : ZMod P) := by
      rw [Nat.cast_pow, ← cube, ← pow_mul, show 3 * ((P - 1) / 3) = P - 1 by decide +kernel]
    rw [ZMod.pow_card_sub_one_eq_one nonzero, ← ZMod.natCast_mod,
      ← powMod_eq P (P - 7) 256 _ (by decide +kernel)] at exponent
    have one : ((1 : Nat) : ZMod P) = (powMod P (P - 7) 256 ((P - 1) / 3) : Nat) := by
      exact_mod_cast exponent
    rw [ZMod.natCast_eq_natCast_iff'] at one
    revert one
    decide +kernel

theorem order (Q : Group) : N • Q = 0 :=
  ShortWeierstrass.nsmul_eq_zero_of_order N_prime (by decide +kernel) base_ne_zero base_order
    no_order_two Q

noncomputable instance : Module (ZMod N) Group := AddCommGroup.zmodModule order

theorem nsmul_eq_zero_iff {Q : Group} (finite : Q ≠ 0) (k : Nat) : k • Q = 0 ↔ N ∣ k := by
  have exact : addOrderOf Q = N := addOrderOf_eq_prime (order Q) finite
  rw [← exact, addOrderOf_dvd_iff_nsmul_eq_zero]

end S256

namespace BitCurve

open S256

theorem cast_subMod (a c : Int) : ((subMod a c : Int) : ZMod P) = a - c := by
  unfold subMod
  split
  · push_cast
    rw [ZMod.natCast_self, add_zero]
  · push_cast
    rfl

theorem modInverse_P (z : Int) :
    ((z : ZMod P) = 0 ∧ modInverse z P = none) ∨
      ∃ inverse, modInverse z P = some inverse ∧ (inverse : ZMod P) * z = 1 := by
  have coprime : Int.gcd z P = 1 ↔ (z : ZMod P) ≠ 0 := by
    rw [ne_eq, ZMod.intCast_zmod_eq_zero_iff_dvd, ← Int.isCoprime_iff_gcd_eq_one, isCoprime_comm]
    exact (Nat.prime_iff_prime_int.mp P_prime).coprime_iff_not_dvd
  by_cases zero : (z : ZMod P) = 0
  · left
    exact ⟨zero, by rw [modInverse, if_neg (fun one => coprime.mp one zero)]⟩
  · right
    obtain ⟨inverse, found⟩ : ∃ inverse, modInverse z P = some inverse :=
      ⟨_, by rw [modInverse, if_pos (coprime.mpr zero)]⟩
    refine ⟨inverse, found, ?_⟩
    have product := (ZMod.intCast_eq_intCast_iff' (z * inverse) 1 P).mpr (modInverse_mul found)
    push_cast at product
    rw [mul_comm, product]

private theorem addJacobian_z (x₁ y₁ x₂ y₂ : Int) :
    ((addJacobian x₁ y₁ 1 x₂ y₂ 1).2.2 : ZMod P) = 2 * ((x₂ : ZMod P) - x₁) := by
  simp only [addJacobian, ZMod.intCast_mod, Int.cast_mul, cast_subMod]
  push_cast
  ring

private theorem add_coordinates {x₁ y₁ x₂ y₂ : Int} {xSum ySum : ZMod P}
    (different : (x₁ : ZMod P) ≠ x₂)
    (isX : xSum = (((y₂ : ZMod P) - y₁) / (x₂ - x₁)) ^ 2 - x₁ - x₂)
    (isY : ySum = ((y₂ : ZMod P) - y₁) / (x₂ - x₁) * (x₁ - xSum) - y₁) :
    add (some (x₁, y₁)) (some (x₂, y₂)) = .ok (some ((xSum.val : Int), (ySum.val : Int))) := by
  have gap : (x₂ : ZMod P) - x₁ ≠ 0 := sub_ne_zero.mpr different.symm
  have two : (2 : ZMod P) ≠ 0 := by
    have := (ShortWeierstrass.cast_eq_zero_iff two_lt_P).not.mpr two_ne_zero
    exact_mod_cast this
  rw [add]
  obtain ⟨⟨x, y, z⟩, triple⟩ : ∃ t, addJacobian x₁ y₁ 1 x₂ y₂ 1 = t := ⟨_, rfl⟩
  have zCast : (z : ZMod P) = 2 * (x₂ - x₁) := by
    rw [← addJacobian_z x₁ y₁ x₂ y₂, triple]
  simp only [triple]
  simp only [addJacobian, Prod.mk.injEq] at triple
  obtain ⟨xIs, yIs, -⟩ := triple
  -- the package scales the coordinates by the square and the cube of z
  have xCast : (x : ZMod P) = xSum * (z : ZMod P) ^ 2 := by
    rw [zCast, isX, ← xIs]
    simp only [ZMod.intCast_mod, Int.cast_mul, Int.cast_sub, cast_subMod]
    field_simp
    push_cast
    ring
  have yCast : (y : ZMod P) = ySum * (z : ZMod P) ^ 3 := by
    rw [← yIs]
    simp only [xIs, ZMod.intCast_mod, Int.cast_mul, Int.cast_sub, cast_subMod, xCast]
    rw [zCast, isY]
    field_simp
    push_cast
    ring
  rcases modInverse_P z with ⟨zero, -⟩ | ⟨inverse, found, product⟩
  · rw [zCast] at zero
    exact absurd zero (mul_ne_zero two gap)
  · rw [affineFromJacobian, found]
    simp only [Outcome.ok.injEq, Option.some.injEq, Prod.mk.injEq, ← ZMod.val_intCast]
    constructor
    · congr 2
      push_cast
      rw [xCast]
      linear_combination (xSum * (inverse * z + 1)) * product
    · congr 2
      push_cast
      rw [yCast]
      linear_combination
        (ySum * ((inverse * z : ZMod P) ^ 2 + inverse * z + 1)) * product

theorem add_affine {Q R : Group} (left : Q ≠ 0) (right : R ≠ 0) (different : Q ≠ R)
    (independent : Q ≠ -R) : add (affine Q) (affine R) = .ok (affine (Q + R)) := by
  cases Q with
  | zero => exact absurd rfl left
  | some x₁ y₁ h₁ =>
    cases R with
    | zero => exact absurd rfl right
    | some x₂ y₂ h₂ =>
      have columns : x₁ ≠ x₂ := fun same =>
        (WeierstrassCurve.Affine.Point.X_eq_iff.mp same).elim different independent
      obtain ⟨x, y, h, sum, xIs, yIs⟩ := ShortWeierstrass.add_some_eq h₁ h₂ columns
      rw [sum]
      simp only [affine, ShortWeierstrass.coords_some, Option.map_some]
      apply add_coordinates
      · simpa using columns
      · simpa using xIs
      · simpa using yIs

theorem add_affine_panic {Q R : Group} (vertical : Q = R ∨ Q = -R) :
    add (affine Q) (affine R) = .panic := by
  cases Q with
  | zero => rfl
  | some x₁ y₁ h₁ =>
    cases R with
    | zero => rfl
    | some x₂ y₂ h₂ =>
      have same := WeierstrassCurve.Affine.Point.X_eq_iff.mpr vertical
      simp only [affine, ShortWeierstrass.coords_some, Option.map_some, add]
      have z := addJacobian_z x₁.val y₁.val x₂.val y₂.val
      rw [same, sub_self, mul_zero] at z
      rcases modInverse_P (addJacobian x₁.val y₁.val 1 x₂.val y₂.val 1).2.2 with
        ⟨-, missing⟩ | ⟨inverse, -, product⟩
      · rw [affineFromJacobian, missing]
      · rw [same, z, mul_zero] at product
        exact absurd product zero_ne_one

/-- libsecp256k1 multiplies points by the scalars that the wrapper lets through. -/
def EcmultLaw (ecmult : Ecmult) : Prop :=
  ∀ (Q : Group) (x y k : Nat), ShortWeierstrass.coords Q = some (x, y) → 0 < k → k < N →
    ShortWeierstrass.coords (k • Q) =
      some ((ecmult (.ofNat 256 x) (.ofNat 256 y) k).1.toNat,
        (ecmult (.ofNat 256 x) (.ofNat 256 y) k).2.toNat)

theorem scalarMult_affine {ecmult : Ecmult} (law : EcmultLaw ecmult) {Q : Group} (finite : Q ≠ 0)
    (positive : 0 < k) (below : k < N) :
    scalarMult ecmult (affine Q) (natBytes k) = .ok (affine (k • Q)) := by
  have width : ¬32 < (natBytes k).length := by
    rw [length_natBytes, not_lt]
    exact byteLen_le (below.trans (by decide +kernel))
  obtain ⟨⟨x, y⟩, coords⟩ := coords_of_ne_zero finite
  have accepted : ¬(N ≤ k ∨ k = 0) := by omega
  unfold scalarMult
  rw [if_neg width]
  simp only [affine, coords, Option.map_some, Int.natAbs_natCast, beNat_natBytes, pubkeyScalarMul,
    if_neg accepted]
  rw [law Q x y k coords positive below, Option.map_some]

theorem scalarMult_refused (ecmult : Ecmult) {Q : Group} (finite : Q ≠ 0) (refused : N ≤ k ∨ k = 0)
    (fits : k < 256 ^ 32) : scalarMult ecmult (affine Q) (natBytes k) = .ok none := by
  have width : ¬32 < (natBytes k).length := by
    rw [length_natBytes, not_lt]
    exact byteLen_le fits
  obtain ⟨⟨x, y⟩, coords⟩ := coords_of_ne_zero finite
  unfold scalarMult
  rw [if_neg width]
  simp only [affine, coords, Option.map_some, beNat_natBytes, pubkeyScalarMul, if_pos refused]

/-- The curve of the node, with what libsecp256k1 promises. -/
noncomputable def curveLaw {ecmult : Ecmult}
    (law : EcmultLaw ecmult) : CurveLaw (curve ecmult) Group where
  coords := affine
  base := base
  coords_base := affine_base
  coords_nonneg Q x y found := by
    obtain ⟨xy, -, same⟩ := Option.map_eq_some_iff.mp found
    cases same
    exact ⟨Int.natCast_nonneg _, Int.natCast_nonneg _⟩
  scalarMult Q k isPoint below := by
    have finite : Q ≠ 0 := mt (affine_eq_none_iff Q).mpr isPoint
    rw [Nat.cast_smul_eq_nsmul]
    rcases Nat.eq_zero_or_pos k with rfl | positive
    · rw [zero_nsmul]
      exact scalarMult_refused ecmult finite (.inr rfl) (by decide)
    · exact scalarMult_affine law finite positive below
  add Q R point returned := by
    by_cases vertical : Q = R ∨ Q = -R
    · cases (add_affine_panic vertical).symm.trans returned
    obtain ⟨different, independent⟩ := not_or.mp vertical
    obtain ⟨left, right⟩ : Q ≠ 0 ∧ R ≠ 0 := by
      constructor
      · rintro rfl
        cases returned
      · rintro rfl
        rw [affine_zero] at returned
        cases isPoint : affine Q with
        | none | some => cases isPoint ▸ returned
    exact (Outcome.ok.inj ((add_affine left right different independent).symm.trans returned)).symm

end BitCurve
end SchnorrMpc
