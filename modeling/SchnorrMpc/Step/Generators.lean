import SchnorrMpc.Protocol.Types
import SchnorrMpc.Schnorr.BasicFunc

/-!
# Message generators

Each generator holds the value its node contributes to a step, the values that
arrived from the peers by seed, and the result computed from them. A method
that ranges over the arrived values takes them as the list `order`, which is
whatever order the iteration happens to have.
-/
namespace SchnorrMpc

open Lib S256

/-! ### Sharing of a random polynomial -/

structure RandomPolynomialValue where
  randCoefficient : List Int
  message : Assoc Nat Int
  polyValue : List Int
  result : Option Int
  deriving DecidableEq, Repr

def createSkPolyValue (degree : Int) (peerNum : Nat) : Go RandomPolynomialValue :=
  if degree + 1 < 0 then .panic
  else .ok ⟨List.replicate (degree + 1).toNat 0, [], List.replicate peerNum 0, none⟩

namespace RandomPolynomialValue

/-- `s` and `draw` are what the random source returns. -/
def initializeFrom (poly : RandomPolynomialValue) (peers : List PeerInfo) (s : Int)
    (draw : Nat → Int) : Go RandomPolynomialValue := do
  let degree := (poly.randCoefficient.length : Int) - 1
  let cof ← randPoly degree s draw
  let randCoefficient := cof.take poly.randCoefficient.length
    ++ poly.randCoefficient.drop cof.length
  let polyValue ← (List.range poly.polyValue.length).mapM (fun i => do
    let peer ← Outcome.index peers i
    evaluatePoly randCoefficient peer.seed degree)
  pure { poly with randCoefficient, polyValue }

def calculateResult (poly : RandomPolynomialValue) (order : Assoc Nat Int) :
    RandomPolynomialValue :=
  { poly with result := some (order.foldl (fun result entry => (result + entry.2) % N) 0) }

end RandomPolynomialValue

/-! ### Interpolation of public shares -/

structure MpcPointGenerator where
  seed : Int × Int
  message : Assoc Nat (Int × Int)
  result : Int × Int
  preValueKey : ResultKey
  deriving DecidableEq, Repr

def createPointGenerator (preValueKey : ResultKey) : MpcPointGenerator :=
  ⟨(0, 0), [], (0, 0), preValueKey⟩

namespace MpcPointGenerator

/-- The log line reads both coordinates before the error of `GetValue` is looked at. -/
def initializeFrom (point : MpcPointGenerator) (store : BaseMpcResult) : Go MpcPointGenerator := do
  let value := (store.result point.preValueKey).getD []
  let x ← Outcome.index value 0
  let y ← Outcome.index value 1
  let _ ← store.getValue point.preValueKey
  pure { point with seed := (x, y) }

def calculateResult (env : Env) (cfg : Config) (point : MpcPointGenerator)
    (order : Assoc Nat (Int × Int)) : Go MpcPointGenerator := do
  let seeds : List Int := order.map (fun entry => (entry.1 : Int))
  let gpkshares : List Point := order.map (fun entry =>
    some ((entry.2.1.natAbs : Int), (entry.2.2.natAbs : Int)))
  if (gpkshares.length : Int) < cfg.mpcSchnrThr then .err .errTooLessDataCollected
  else do
    let result ← lagrangeECC env.curve gpkshares seeds cfg.mpcDegree
    if validatePublicKey result = false then .err .errPointZero
    else
      match result with
      | none => .panic
      | some result => pure { point with result }

/-- The interpolation behind a result. -/
theorem calculateResult_eq_ok {env : Env} {cfg : Config} {point result : MpcPointGenerator}
    {order : Assoc Nat (Int × Int)} (returned : point.calculateResult env cfg order = .ok result) :
    cfg.mpcSchnrThr ≤ order.length ∧
      lagrangeECC env.curve
        (order.map fun entry => some ((entry.2.1.natAbs : Int), (entry.2.2.natAbs : Int)))
        (order.map fun entry => (entry.1 : Int)) cfg.mpcDegree = .ok (some result.result) ∧
      result = { point with result := result.result } := by
  unfold calculateResult at returned
  simp only [List.length_map] at returned
  split at returned
  · cases returned
  next enough =>
    obtain ⟨value, interpolated, checked⟩ := (Outcome.bind_eq_ok_iff ..).mp returned
    split at checked
    · cases checked
    · split at checked
      · cases checked
      · cases checked
        exact ⟨not_lt.mp enough, interpolated, rfl⟩

end MpcPointGenerator

/-! ### Interpolation of signature shares -/

structure MpcSGenerator where
  seed : Int
  message : Assoc Nat Int
  result : Int
  preValueKey : ResultKey
  deriving DecidableEq, Repr

def createSGenerator (preValueKey : ResultKey) : MpcSGenerator :=
  ⟨0, [], 0, preValueKey⟩

namespace MpcSGenerator

/-- The node's signature share for the challenge made of the message and `R`. -/
def initializeFrom (env : Env) (msg : MpcSGenerator)
    (store : BaseMpcResult) : Go MpcSGenerator := do
  let rgpkValue ← store.getValue .rPublicKeyResult
  let x ← Outcome.index rgpkValue 0
  let y ← Outcome.index rgpkValue 1
  let mBytes ← store.getByteValue .mpcM
  let hashMBytes := env.sha256 mBytes
  let rgpk ← fromECDSAPub (some (x, y))
  let m : Int := beNat (env.sha256 (hashMBytes.val ++ rgpk)).val
  let rskShare ← store.getValue .rMpcPrivateShare
  let gskShare ← store.getValue .mpcPrivateShare
  let gsk ← Outcome.index gskShare 0
  let rsk ← Outcome.index rskShare 0
  pure { msg with seed := schnorrSign gsk rsk m }

def calculateResult (cfg : Config) (msg : MpcSGenerator) (order : Assoc Nat Int) :
    Go MpcSGenerator := do
  let seeds : List Int := order.map (fun entry => (entry.1 : Int))
  let sigshares : List Int := order.map (fun entry => entry.2)
  if (sigshares.length : Int) < cfg.mpcSchnrThr then .err .errTooLessDataCollected
  else do
    let result ← lagrange sigshares seeds cfg.mpcDegree
    pure { msg with result }

end MpcSGenerator
end SchnorrMpc
