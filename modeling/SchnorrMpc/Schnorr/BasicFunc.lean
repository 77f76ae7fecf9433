import SchnorrMpc.Crypto.PublicKey

/-!
# Shamir shares and Schnorr shares

Polynomials are slices of coefficients, constant term first. All arithmetic is
on big integers with an explicit reduction modulo `N`, in the order the code
has it. Slices are read by index, and an index outside of a slice panics.
-/
namespace SchnorrMpc

open Lib S256

variable {curve : Curve} {sig : List Point} {x : List Int} {degree : Int} {result : Point}

abbrev Polynomial := List Int

/-- A polynomial with a given constant term; `draw i` is what the random source returns for
the coefficient after the `i`-th. -/
def randPoly (degree constant : Int) (draw : Nat → Int) : Go Polynomial :=
  if degree < 0 then .panic
  else .ok (constant % N :: (List.range degree.toNat).map (fun i => draw i + 1))

def evaluatePoly (f : Polynomial) (x degree : Int) : Go Int :=
  (List.range (degree + 1).toNat).foldlM (fun sum i => do
    let temp1 := x ^ i % N
    let temp1 := temp1 % N
    let fi ← Outcome.index f i
    let temp2 := fi * temp1
    let temp2 := temp2 % N
    pure ((sum + temp2) % N)) 0

/-- Product over `j ≠ i` of `x[j] / (x[j] - x[i])`. A difference without an inverse stays as
it is, since the result of `ModInverse` is not looked at. -/
def evaluateb (x : List Int) (i : Nat) (degree : Int) : Go Int :=
  (List.range (degree + 1).toNat).foldlM (fun sum j =>
    if j ≠ i then do
      let xj ← Outcome.index x j
      let xi ← Outcome.index x i
      let temp1 := xj - xi
      let temp1 := (modInverse temp1 N).getD temp1
      let temp2 := xj * temp1
      pure (sum * temp2 % N)
    else pure sum) 1

def evaluateB (x : List Int) (degree : Int) : Go (List Int) :=
  if degree + 1 < 0 then .panic
  else (List.range (degree + 1).toNat).mapM (fun i => evaluateb x i degree)

/-- The sum starts from the first term, because the code has no point at infinity. -/
def lagrangeECC (curve : Curve) (sig : List Point) (x : List Int) (degree : Int) : Go Point := do
  let b ← evaluateB x degree
  let sig0 ← Outcome.index sig 0
  let b0 ← Outcome.index b 0
  let sum ← curve.scalarMult sig0 (intBytes b0)
  (List.range' 1 degree.toNat).foldlM (fun sum i => do
    let sigi ← Outcome.index sig i
    let bi ← Outcome.index b i
    let temp ← curve.scalarMult sigi (intBytes bi)
    curve.add sum temp) sum

theorem lagrangeECC_degree (returned : lagrangeECC curve sig x degree = .ok result) :
    0 ≤ degree := by
  simp only [lagrangeECC, Outcome.bind_eq_ok_iff, Outcome.index_eq_ok_iff] at returned
  obtain ⟨b, weights, sig0, -, b0, first, -⟩ := returned
  by_contra negative
  unfold evaluateB at weights
  split at weights
  · cases weights
  · rw [show (degree + 1).toNat = 0 by omega] at weights
    cases weights
    cases first

theorem lagrangeECC_ranged (ranged : curve.KeepsRange)
    (returned : lagrangeECC curve sig x degree = .ok result) : Ranged result := by
  simp only [lagrangeECC, Outcome.bind_eq_ok_iff] at returned
  obtain ⟨b, -, sig0, -, b0, -, sum, first, loop⟩ := returned
  refine Outcome.foldlM_invariant Ranged ?_ (ranged.scalarMult _ _ _ first) loop
  intro sum next i _ _ round
  simp only [Outcome.bind_eq_ok_iff] at round
  obtain ⟨_, -, _, -, _, -, added⟩ := round
  exact ranged.add _ _ _ added

def schnorrSign (psk r m : Int) : Int :=
  let sum := psk * m
  let sum := sum % N
  let sum := sum + r
  sum % N

def lagrange (f x : List Int) (degree : Int) : Go Int := do
  let b ← evaluateB x degree
  (List.range (degree + 1).toNat).foldlM (fun s i => do
    let fi ← Outcome.index f i
    let bi ← Outcome.index b i
    let temp1 := fi * bi
    pure ((s + temp1) % N)) 0

def validatePublicKey : Point → Bool
  | none => false
  | some (x, y) => x != 0 && y != 0

end SchnorrMpc
