import SchnorrMpc.Lib.Primality
import Mathlib.AlgebraicGeometry.EllipticCurve.Affine.Point
import Mathlib.GroupTheory.Perm.Cycle.Type
import Mathlib.FieldTheory.Finite.Basic
import Mathlib.Tactic.FieldSimp
import Mathlib.Tactic.LinearCombination

/-!
# Curves `y² = x³ + b` over a prime field

Arithmetic on natural numbers that the kernel can evaluate, in Jacobian
coordinates, and its agreement with the group of the curve. The last section
bounds the size of that group, which decides it from the order of one point.
-/
namespace SchnorrMpc.Lib.ShortWeierstrass

open WeierstrassCurve.Affine

/-- The curve with the equation `y² = x³ + b`. -/
def curve (p b : Nat) : WeierstrassCurve.Affine (ZMod p) := ⟨0, 0, 0, 0, (b : ZMod p)⟩

theorem equation_iff {p b : Nat} (x y : ZMod p) :
    (curve p b).Equation x y ↔ y ^ 2 = x ^ 3 + b := by
  rw [WeierstrassCurve.Affine.equation_iff]
  simp [curve]

@[simp] theorem negY_eq {p b : Nat} (x y : ZMod p) : (curve p b).negY x y = -y := by
  simp [negY, curve]

/-! ### Arithmetic on representatives -/

def subMod (p a b : Nat) : Nat := (a + (p - b % p)) % p

def invMod (p a : Nat) : Nat := powMod p a (Nat.log2 p + 1) (p - 2)

/-- The point with affine coordinates `x / z²` and `y / z³`; infinity when `z` is zero. -/
structure Jacobian where
  x : Nat
  y : Nat
  z : Nat
  deriving DecidableEq, Repr

namespace Jacobian

def infinity : Jacobian := ⟨1, 1, 0⟩

def double (p : Nat) (q : Jacobian) : Jacobian :=
  let ySquare := q.y * q.y % p
  let s := 4 * q.x * ySquare % p
  let m := 3 * q.x * q.x % p
  let x := subMod p (m * m) (2 * s)
  ⟨x, subMod p (m * subMod p s x) (8 * ySquare * ySquare), 2 * q.y * q.z % p⟩

def add (p : Nat) (q r : Jacobian) : Jacobian :=
  if q.z = 0 then r
  else if r.z = 0 then q
  else
    let qSquare := q.z * q.z % p
    let rSquare := r.z * r.z % p
    let u := q.x * rSquare % p
    let s := q.y * (rSquare * r.z) % p
    let h := subMod p (r.x * qSquare) u
    let d := subMod p (r.y * (qSquare * q.z)) s
    if h = 0 then if d = 0 then double p q else infinity
    else
      let hSquare := h * h % p
      let hCube := hSquare * h % p
      let v := u * hSquare % p
      let x := subMod p (subMod p (d * d) hCube) (2 * v)
      ⟨x, subMod p (d * subMod p v x) (s * hCube), h * q.z * r.z % p⟩

/-- Doubling and adding, over the `bits` low bits of the scalar. -/
def mul (p : Nat) (q : Jacobian) : Nat → Nat → Jacobian
  | 0, _ => infinity
  | bits + 1, k =>
    let half := mul p q bits (k / 2)
    if k % 2 = 1 then add p (double p half) q else double p half

/-- The affine coordinates; none for infinity. -/
def toAffine (p : Nat) (q : Jacobian) : Option (Nat × Nat) :=
  if q.z = 0 then none
  else
    let inverse := invMod p q.z
    let square := inverse * inverse % p
    some (q.x * square % p, q.y * (square * inverse) % p)

def ofAffine : Option (Nat × Nat) → Jacobian
  | none => infinity
  | some (x, y) => ⟨x, y, 1⟩

end Jacobian

variable {p b : Nat} [Fact p.Prime]

@[simp] theorem cast_subMod (a c : Nat) : ((subMod p a c : Nat) : ZMod p) = a - c := by
  have below : c % p ≤ p := (Nat.mod_lt c (Fact.out : p.Prime).pos).le
  rw [subMod, ZMod.natCast_mod, Nat.cast_add, Nat.cast_sub below, ZMod.natCast_mod,
    ZMod.natCast_self]
  ring

theorem subMod_lt (a c : Nat) : subMod p a c < p := Nat.mod_lt _ (Fact.out : p.Prime).pos

theorem cast_invMod {a : Nat} (large : 2 < p) : ((invMod p a : Nat) : ZMod p) = (a : ZMod p)⁻¹ := by
  have fits : p - 2 < 2 ^ (Nat.log2 p + 1) :=
    Nat.lt_of_le_of_lt (Nat.sub_le p 2) Nat.lt_log2_self
  rw [invMod, powMod_eq p a _ _ fits, ZMod.natCast_mod, Nat.cast_pow]
  by_cases zero : (a : ZMod p) = 0
  · rw [zero, inv_zero, zero_pow (by omega)]
  · apply eq_inv_of_mul_eq_one_left
    rw [← pow_succ, show p - 2 + 1 = p - 1 by omega]
    exact ZMod.pow_card_sub_one_eq_one zero

theorem cast_eq_zero_iff {a : Nat} (below : a < p) : (a : ZMod p) = 0 ↔ a = 0 := by
  rw [ZMod.natCast_eq_zero_iff]
  constructor
  · intro divides
    exact Nat.eq_zero_of_dvd_of_lt divides below
  · rintro rfl
    exact dvd_zero p

/-! ### Agreement with the group -/

/-- The triple stands for the element of the group. -/
def Denotes (q : Jacobian) (Q : (curve p b).Point) : Prop :=
  q.z < p ∧ ((q.z = 0 ∧ Q = 0) ∨ (q.z ≠ 0 ∧ ∃ x y h, Q = .some x y h ∧
    (q.x : ZMod p) = x * (q.z : ZMod p) ^ 2 ∧ (q.y : ZMod p) = y * (q.z : ZMod p) ^ 3))

theorem denotes_infinity : Denotes .infinity (0 : (curve p b).Point) :=
  ⟨(Fact.out : p.Prime).pos, .inl ⟨rfl, rfl⟩⟩

theorem denotes_some {x y : Nat} {X Y : ZMod p} {h : (curve p b).Nonsingular X Y}
    (isX : (x : ZMod p) = X) (isY : (y : ZMod p) = Y) :
    Denotes ⟨x, y, 1⟩ (Point.some X Y h) := by
  refine ⟨(Fact.out : p.Prime).one_lt, .inr ⟨one_ne_zero, X, Y, h, rfl, ?_, ?_⟩⟩
  · simp [isX]
  · simp [isY]

private theorem two_ne_zero' (large : 2 < p) : (2 : ZMod p) ≠ 0 := by
  have := (cast_eq_zero_iff (p := p) (a := 2) large).not.mpr (by decide)
  exact_mod_cast this

private theorem add_self_eq (large : 2 < p) {x y : ZMod p} (h : (curve p b).Nonsingular x y)
    (finite : y ≠ 0) :
    ∃ x' y' h', Point.some x y h + Point.some x y h = Point.some x' y' h' ∧
      x' = (3 * x ^ 2 / (2 * y)) ^ 2 - 2 * x ∧
      y' = 3 * x ^ 2 / (2 * y) * (x - x') - y := by
  have different : y ≠ (curve p b).negY x y := by
    rw [negY_eq]
    intro same
    have : 2 * y = 0 := by linear_combination same
    exact mul_ne_zero (two_ne_zero' large) finite this
  refine ⟨_, _, _, Point.add_self_of_Y_ne different, ?_, ?_⟩
  · rw [slope_of_Y_ne rfl different, negY_eq, addX]
    simp only [curve]
    ring
  · rw [slope_of_Y_ne rfl different, addY, negAddY, negY_eq, negY_eq]
    simp only [curve]
    ring

theorem add_some_eq {x₁ y₁ x₂ y₂ : ZMod p} (h₁ : (curve p b).Nonsingular x₁ y₁)
    (h₂ : (curve p b).Nonsingular x₂ y₂) (different : x₁ ≠ x₂) :
    ∃ x' y' h', Point.some x₁ y₁ h₁ + Point.some x₂ y₂ h₂ = Point.some x' y' h' ∧
      x' = ((y₂ - y₁) / (x₂ - x₁)) ^ 2 - x₁ - x₂ ∧
      y' = (y₂ - y₁) / (x₂ - x₁) * (x₁ - x') - y₁ := by
  have slope : (curve p b).slope x₁ x₂ y₁ y₂ = (y₂ - y₁) / (x₂ - x₁) := by
    rw [slope_of_X_ne different, ← neg_sub y₂, ← neg_sub x₂, neg_div_neg_eq]
  refine ⟨_, _, _, Point.add_of_X_ne different, ?_, ?_⟩
  · rw [slope, addX]
    simp only [curve]
    ring
  · rw [slope, addY, negAddY, negY_eq]
    ring

theorem double_denotes (large : 2 < p) {q : Jacobian} {Q : (curve p b).Point}
    (denotes : Denotes q Q) : Denotes (q.double p) (Q + Q) := by
  have positive := (Fact.out : p.Prime).pos
  have below : (q.double p).z < p := Nat.mod_lt _ positive
  have zCast : ((q.double p).z : ZMod p) = 2 * q.y * q.z := by simp [Jacobian.double]
  refine ⟨below, ?_⟩
  rcases denotes with ⟨zLt, ⟨zero, rfl⟩ | ⟨nonzero, x, y, h, rfl, xEq, yEq⟩⟩
  · left
    rw [← cast_eq_zero_iff below, zCast, zero]
    simp
  · have zNe : (q.z : ZMod p) ≠ 0 := (cast_eq_zero_iff zLt).not.mpr nonzero
    have two : (2 : ZMod p) ≠ 0 := two_ne_zero' large
    by_cases vertical : y = 0
    · left
      rw [← cast_eq_zero_iff below, zCast, yEq]
      exact ⟨by rw [vertical]; ring, Point.add_self_of_Y_eq (by rw [negY_eq, vertical, neg_zero])⟩
    · right
      obtain ⟨x', y', h', sum, xSum, ySum⟩ := add_self_eq large h vertical
      constructor
      · rw [ne_eq, ← cast_eq_zero_iff below, zCast, yEq]
        exact mul_ne_zero (mul_ne_zero two (mul_ne_zero vertical (pow_ne_zero 3 zNe))) zNe
      · have xDouble : ((q.double p).x : ZMod p) = x' * ((q.double p).z : ZMod p) ^ 2 := by
          rw [zCast, yEq, xSum]
          simp only [Jacobian.double, cast_subMod, Nat.cast_mul, ZMod.natCast_mod, xEq, yEq]
          field_simp
          push_cast
          ring
        have yDouble : ((q.double p).y : ZMod p) = y' * ((q.double p).z : ZMod p) ^ 3 := by
          have yCast : ((q.double p).y : ZMod p) = 3 * q.x * q.x *
              (4 * q.x * (q.y * q.y) - (q.double p).x) - 8 * (q.y * q.y) * (q.y * q.y) := by
            simp [Jacobian.double]
          rw [yCast, xDouble, zCast, yEq, xEq, ySum]
          field_simp
          ring
        exact ⟨x', y', h', sum, xDouble, yDouble⟩

theorem add_denotes (large : 2 < p) {q r : Jacobian} {Q R : (curve p b).Point}
    (left : Denotes q Q) (right : Denotes r R) : Denotes (q.add p r) (Q + R) := by
  have twice := double_denotes large left
  rcases left with ⟨qLt, ⟨qZero, rfl⟩ | ⟨qNonzero, x₁, y₁, h₁, rfl, x₁Eq, y₁Eq⟩⟩
  · rw [Jacobian.add, if_pos qZero, zero_add]
    exact right
  rcases id right with ⟨rLt, ⟨rZero, rfl⟩ | ⟨rNonzero, x₂, y₂, h₂, rfl, x₂Eq, y₂Eq⟩⟩
  · rw [Jacobian.add, if_neg qNonzero, if_pos rZero, add_zero]
    exact ⟨qLt, .inr ⟨qNonzero, x₁, y₁, h₁, rfl, x₁Eq, y₁Eq⟩⟩
  have qNe : (q.z : ZMod p) ≠ 0 := (cast_eq_zero_iff qLt).not.mpr qNonzero
  have rNe : (r.z : ZMod p) ≠ 0 := (cast_eq_zero_iff rLt).not.mpr rNonzero
  -- `h` and `d` are the differences of the coordinates over a common denominator.
  obtain ⟨h, hDef⟩ : ∃ h, h = subMod p (r.x * (q.z * q.z % p)) (q.x * (r.z * r.z % p) % p) :=
    ⟨_, rfl⟩
  obtain ⟨d, dDef⟩ : ∃ d, d = subMod p (r.y * (q.z * q.z % p * q.z))
      (q.y * (r.z * r.z % p * r.z) % p) := ⟨_, rfl⟩
  have hLt : h < p := hDef ▸ subMod_lt _ _
  have dLt : d < p := dDef ▸ subMod_lt _ _
  have hCast : (h : ZMod p) = (x₂ - x₁) * ((q.z : ZMod p) * r.z) ^ 2 := by
    rw [hDef]
    simp only [cast_subMod, Nat.cast_mul, ZMod.natCast_mod, x₁Eq, x₂Eq]
    ring
  have dCast : (d : ZMod p) = (y₂ - y₁) * ((q.z : ZMod p) * r.z) ^ 3 := by
    rw [dDef]
    simp only [cast_subMod, Nat.cast_mul, ZMod.natCast_mod, y₁Eq, y₂Eq]
    ring
  have commonNe : ((q.z : ZMod p) * r.z) ≠ 0 := mul_ne_zero qNe rNe
  have sameX : h = 0 ↔ x₁ = x₂ := by
    rw [← cast_eq_zero_iff hLt, hCast, mul_eq_zero, or_iff_left (pow_ne_zero 2 commonNe),
      sub_eq_zero, eq_comm]
  have sameY : d = 0 ↔ y₁ = y₂ := by
    rw [← cast_eq_zero_iff dLt, dCast, mul_eq_zero, or_iff_left (pow_ne_zero 3 commonNe),
      sub_eq_zero, eq_comm]
  rw [Jacobian.add, if_neg qNonzero, if_neg rNonzero]
  simp only [← hDef, ← dDef]
  by_cases vertical : h = 0
  · rw [if_pos vertical]
    obtain rfl := sameX.mp vertical
    by_cases same : d = 0
    · rw [if_pos same]
      obtain rfl := sameY.mp same
      exact twice
    · -- Two points above one coordinate that differ are opposite.
      have opposite : y₁ = (curve p b).negY x₁ y₂ :=
        (Y_eq_of_X_eq h₁.1 h₂.1 rfl).resolve_left (sameY.not.mp same)
      rw [if_neg same, Point.add_of_Y_eq rfl opposite]
      exact denotes_infinity
  · rw [if_neg vertical]
    obtain ⟨x', y', h', sum, xSum, ySum⟩ := add_some_eq h₁ h₂ (sameX.not.mp vertical)
    have gapNe : x₂ - x₁ ≠ 0 := sub_ne_zero.mpr fun same => vertical (sameX.mpr same.symm)
    have below : h * q.z * r.z % p < p := Nat.mod_lt _ (Fact.out : p.Prime).pos
    have zCast : ((h * q.z * r.z % p : Nat) : ZMod p) = h * q.z * r.z := by simp
    have zNe : (h : ZMod p) * q.z * r.z ≠ 0 :=
      mul_ne_zero (mul_ne_zero ((cast_eq_zero_iff hLt).not.mpr vertical) qNe) rNe
    refine ⟨below, .inr ⟨?_, x', y', h', sum, ?_, ?_⟩⟩
    · rw [ne_eq, ← cast_eq_zero_iff below, zCast]
      exact zNe
    · rw [zCast, xSum]
      simp only [cast_subMod, Nat.cast_mul, ZMod.natCast_mod, x₁Eq, hCast, dCast]
      field_simp
      push_cast
      ring
    · rw [zCast, ySum, xSum]
      simp only [cast_subMod, Nat.cast_mul, ZMod.natCast_mod, x₁Eq, y₁Eq, hCast, dCast]
      field_simp
      push_cast
      ring

theorem mul_denotes (large : 2 < p) {q : Jacobian} {Q : (curve p b).Point} (denotes : Denotes q Q)
    (bits k : Nat) (fits : k < 2 ^ bits) : Denotes (q.mul p bits k) (k • Q) := by
  induction bits generalizing k with
  | zero =>
    have : k = 0 := by simpa using fits
    subst this
    rw [zero_nsmul]
    exact denotes_infinity
  | succ bits ih =>
    have half := double_denotes large (ih (k / 2) (by rw [pow_succ] at fits; omega))
    rw [← two_nsmul, smul_smul] at half
    rw [Jacobian.mul]
    split
    next odd =>
      have whole : k = 2 * (k / 2) + 1 := by omega
      have sum := add_denotes large half denotes
      rw [← succ_nsmul, ← whole] at sum
      exact sum
    next even =>
      have whole : 2 * (k / 2) = k := by omega
      rw [whole] at half
      exact half

/-- Affine coordinates in the field; none for the neutral element. -/
def pair : (curve p b).Point → Option (ZMod p × ZMod p)
  | .zero => none
  | .some x y _ => some (x, y)

omit [Fact p.Prime] in
theorem pair_injective : Function.Injective (pair (p := p) (b := b)) := by
  intro Q R same
  cases Q with
  | zero =>
    cases R with
    | zero => rfl
    | some x y h => cases same
  | some x y h =>
    cases R with
    | zero => cases same
    | some x' y' h' =>
      cases same
      rfl

/-- Affine coordinates as natural numbers; none for the neutral element. -/
def coords (Q : (curve p b).Point) : Option (Nat × Nat) :=
  (pair Q).map fun xy => (xy.1.val, xy.2.val)

omit [Fact p.Prime] in
@[simp] theorem coords_zero : coords (0 : (curve p b).Point) = none := rfl

omit [Fact p.Prime] in
@[simp] theorem coords_some {x y : ZMod p} (h : (curve p b).Nonsingular x y) :
    coords (Point.some x y h) = some (x.val, y.val) := rfl

theorem coords_injective : Function.Injective (coords (p := p) (b := b)) := by
  have notZero : NeZero p := ⟨(Fact.out : p.Prime).ne_zero⟩
  have values : Function.Injective fun xy : ZMod p × ZMod p => (xy.1.val, xy.2.val) := by
    rintro ⟨x, y⟩ ⟨x', y'⟩ same
    cases ZMod.val_injective p (Prod.mk.inj same).1
    cases ZMod.val_injective p (Prod.mk.inj same).2
    rfl
  exact (Option.map_injective values).comp pair_injective

theorem toAffine_eq (large : 2 < p) {q : Jacobian} {Q : (curve p b).Point}
    (denotes : Denotes q Q) : q.toAffine p = coords Q := by
  have notZero : NeZero p := ⟨(Fact.out : p.Prime).ne_zero⟩
  rcases denotes with ⟨zLt, ⟨zero, rfl⟩ | ⟨nonzero, x, y, h, rfl, xEq, yEq⟩⟩
  · rw [Jacobian.toAffine, if_pos zero, coords_zero]
  · have zNe : (q.z : ZMod p) ≠ 0 := (cast_eq_zero_iff zLt).not.mpr nonzero
    rw [Jacobian.toAffine, if_neg nonzero]
    simp only [coords_some, Option.some.injEq, Prod.mk.injEq]
    constructor
    · rw [← ZMod.val_natCast]
      congr 1
      simp only [Nat.cast_mul, ZMod.natCast_mod, cast_invMod large, xEq]
      field_simp
    · rw [← ZMod.val_natCast]
      congr 1
      simp only [Nat.cast_mul, ZMod.natCast_mod, cast_invMod large, yEq]
      field_simp

theorem ofAffine_denotes (Q : (curve p b).Point) : Denotes (.ofAffine (coords Q)) Q := by
  have notZero : NeZero p := ⟨(Fact.out : p.Prime).ne_zero⟩
  cases Q with
  | zero => exact denotes_infinity
  | some x y h => exact denotes_some (ZMod.natCast_zmod_val x) (ZMod.natCast_zmod_val y)

/-! ### The size of the group -/

instance : Finite (curve p b).Point := by
  have notZero : NeZero p := ⟨(Fact.out : p.Prime).ne_zero⟩
  exact Finite.of_injective pair pair_injective

/-- Every coordinate belongs to at most two points. -/
theorem card_point_le : Nat.card (curve p b).Point ≤ 2 * (p + 1) := by
  classical
  have notZero : NeZero p := ⟨(Fact.out : p.Prime).ne_zero⟩
  have enumerated := Fintype.ofFinite (curve p b).Point
  let column (Q : (curve p b).Point) : Option (ZMod p) := (pair Q).map Prod.fst
  have above (Q R : (curve p b).Point) (same : column R = column Q) : R = Q ∨ R = -Q := by
    cases Q with
    | zero =>
      cases R with
      | zero => exact .inl rfl
      | some x y h => cases same
    | some x y h =>
      cases R with
      | zero => cases same
      | some x' y' h' => exact Point.X_eq_iff.mp (Option.some.inj same)
  have fibres : ∀ x ∈ Finset.univ.image column,
      (Finset.univ.filter fun R => column R = x).card ≤ 2 := by
    intro x member
    obtain ⟨Q, -, rfl⟩ := Finset.mem_image.mp member
    refine (Finset.card_le_card ?_).trans (Finset.card_le_two (a := Q) (b := -Q))
    intro R belongs
    rw [Finset.mem_insert, Finset.mem_singleton]
    exact above Q R (Finset.mem_filter.mp belongs).2
  have columns : (Finset.univ.image column).card ≤ p + 1 := by
    have all := Finset.card_le_univ (Finset.univ.image column)
    rwa [Fintype.card_option, ZMod.card] at all
  calc Nat.card (curve p b).Point = Finset.univ.card := Nat.card_eq_fintype_card
    _ ≤ 2 * (Finset.univ.image column).card := Finset.card_le_mul_card_image _ 2 fibres
    _ ≤ 2 * (p + 1) := Nat.mul_le_mul_left 2 columns

/-- A point of large prime order generates the group, if no point has order two. -/
theorem nsmul_eq_zero_of_order {n : Nat} (prime : n.Prime) (large : 2 * (p + 1) < 3 * n)
    {base : (curve p b).Point} (finite : base ≠ 0) (order : n • base = 0)
    (odd : ∀ Q : (curve p b).Point, Q + Q = 0 → Q = 0) (Q : (curve p b).Point) : n • Q = 0 := by
  have primeFact : Fact n.Prime := ⟨prime⟩
  have divides : n ∣ Nat.card (curve p b).Point := by
    rw [← addOrderOf_eq_prime order finite]
    exact addOrderOf_dvd_natCard base
  have bound := card_point_le (p := p) (b := b)
  have positive : 0 < Nat.card (curve p b).Point := Nat.card_pos
  have notEven : ¬2 ∣ Nat.card (curve p b).Point := by
    intro even
    obtain ⟨R, two⟩ := exists_prime_addOrderOf_dvd_card' 2 even
    have zero : R = 0 := odd R (by rw [← two_nsmul, ← two]; exact addOrderOf_nsmul_eq_zero R)
    rw [zero, addOrderOf_zero] at two
    omega
  obtain ⟨k, size⟩ := divides
  have one : k = 1 := by
    rw [size] at bound positive notEven
    have below : k < 3 := Nat.lt_of_mul_lt_mul_left (a := n) (by omega)
    have nonzero : k ≠ 0 := by
      rintro rfl
      simp at positive
    have notTwo : k ≠ 2 := by
      rintro rfl
      exact notEven (Dvd.intro_left n rfl)
    omega
  rw [one, mul_one] at size
  rw [← size]
  exact card_nsmul_eq_zero'

end SchnorrMpc.Lib.ShortWeierstrass
