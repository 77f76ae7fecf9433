import SchnorrMpc.Crypto.PublicKey

/-!
# Ring signatures

The signer of a ring commits to two points for every key, closes the ring at its
own place with a scalar that the digest of all of them determines, and hides the
place by exchanging its key with another. A nil key and a key with a nil
coordinate are refused alike, and are both the missing point here.
-/
namespace SchnorrMpc

open Lib S256

def errInvalidRingSignParams : Err := .new (utf8 "invalid ring sign params")

def errRingSignFail : Err := .new (utf8 "ring sign fail")

/-- What the signer draws: its place, and the bytes of the scalars at each place. -/
structure RingDraws where
  position : Except Err Nat
  q : Nat → Except Err Bytes
  w : Nat → Except Err Bytes

/-- A scalar of `[1, N)` from the bytes that were read. -/
def randFieldElement2528 : Except Err Bytes → Go Int
  | .error error => .err error
  | .ok bytes => .ok ((beNat bytes % (N - 1) + 1 : Nat) : Int)

/-- `[x]Hash(P)`. -/
def xScalarHashP (env : Env) (x : Bytes) (pub : Point) : Go Point := do
  let encoded ← fromECDSAPub pub
  let keyImg ← env.curve.scalarMult pub (env.keccak256 encoded).val
  env.curve.scalarMult keyImg x

/-- A point, and a multiple of a second one added to it unless it is the signer's place. Nothing is
returned where one of the two is nil; their sum may be. -/
def commitment (env : Env) (first : Go Point) : Option (Point × Int) → Go (Option Point)
  | none => do
    let left ← first
    if left = none then pure none else pure (some left)
  | some (point, scalar) => do
    let left ← first
    if left = none then pure none
    else do
      let right ← env.curve.scalarMult point (intBytes scalar)
      if right = none then pure none
      else do
        let both ← env.curve.add left right
        pure (some both)

/-! ### Signing -/

/-- One place of the ring, with the encoding of its first commitment. -/
structure RingRow where
  key : Point
  place : Nat
  q : Int
  w : Int
  encoded : Bytes
  deriving DecidableEq, Repr

/-- `[q]G + [w]P`, without the second half at the place of the signer. -/
def signRow (env : Env) (draws : RingDraws) (s : Nat) (entry : Point × Nat) : Go RingRow := do
  let q ← randFieldElement2528 (draws.q entry.2)
  let w ← randFieldElement2528 (draws.w entry.2)
  let commit ← commitment env (env.curve.scalarBaseMult (intBytes q))
    (if entry.2 = s then none else some (entry.1, w))
  match commit with
  | none => .err errRingSignFail
  | some Lpub => do
    let encoded ← fromECDSAPub Lpub
    pure ⟨entry.1, entry.2, q, w, encoded⟩

/-- `[q]Hash(P) + [w]I`, without the second half at the place of the signer. -/
def signTail (env : Env) (I : Point) (s : Nat) (row : RingRow) : Go Bytes := do
  let commit ← commitment env (xScalarHashP env (intBytes row.q) row.key)
    (if row.place = s then none else some (I, row.w))
  match commit with
  | none => .err errRingSignFail
  | some Rpub => fromECDSAPub Rpub

/-- The first key goes to the place that was drawn. -/
def exchange (publicKeys : List Point) (s : Nat) : Go (List Point) :=
  if 0 < s then do
    let first ← Outcome.index publicKeys 0
    let other ← Outcome.index publicKeys s
    pure ((publicKeys.set 0 other).set s first)
  else .ok publicKeys

structure RingSignature where
  publicKeys : List Point
  I : Point
  w : List Int
  q : List Int
  deriving DecidableEq, Repr

def ringSign (env : Env) (draws : RingDraws) (M : Option Bytes) (x : Option Int)
    (publicKeys : List Point) : Go RingSignature :=
  match M, x with
  | some M, some x =>
    if publicKeys = [] ∨ none ∈ publicKeys then .err errInvalidRingSignParams
    else do
      let first ← Outcome.index publicKeys 0
      let I ← xScalarHashP env (intBytes x) first
      if I = none then .err errRingSignFail
      else
        match draws.position with
        | .error _ => .err errRingSignFail
        | .ok s => do
          let publicKeys ← exchange publicKeys s
          let rows ← publicKeys.zipIdx.mapM (signRow env draws s)
          let sumC := rows.foldl (fun (sum : Int) row =>
            if row.place = s then sum else (sum + row.w) % N) 0
          let tails ← rows.mapM (signTail env I s)
          let digest := env.keccak256 (M ++ (rows.map RingRow.encoded).flatten ++ tails.flatten)
          let own ← Outcome.index rows s
          let cs := ((beNat digest.val : Int) - sumC) % N
          let rs := (own.q - cs * x) % N
          pure ⟨publicKeys, I, (rows.map RingRow.w).set s cs, (rows.map RingRow.q).set s rs⟩
  | _, _ => .err errInvalidRingSignParams

/-! ### Verification -/

/-- The encodings of commitments one after the other, up to the first that is not there. -/
def writeAll : List (Go (Option Point)) → Go (Option Bytes)
  | [] => .ok (some [])
  | commit :: rest => do
    match ← commit with
    | none => pure none
    | some point => do
      let encoded ← fromECDSAPub point
      match ← writeAll rest with
      | none => pure none
      | some tail => pure (some (encoded ++ tail))

/-- The keys and the image are also encoded for the log. -/
def verifyRingSign (env : Env) (M : Option Bytes) (publicKeys : List Point) (I : Option Point)
    (c r : List (Option Int)) : Go Bool :=
  match M, I with
  | some M, some I =>
    if publicKeys = [] ∨ publicKeys.length ≠ c.length ∨ publicKeys.length ≠ r.length then .ok false
    else if none ∈ publicKeys ∨ none ∈ c ∨ none ∈ r then .ok false
    else do
      let _ ← publicKeys.mapM fromECDSAPub
      let _ ← fromECDSAPub I
      let rows := publicKeys.zip (c.reduceOption.zip r.reduceOption)
      match ← writeAll (rows.map fun (key, c, r) =>
          commitment env (env.curve.scalarBaseMult (intBytes r)) (some (key, c))) with
      | none => pure false
      | some first =>
        match ← writeAll (rows.map fun (key, c, r) =>
            commitment env (xScalarHashP env (intBytes r) key) (some (I, c))) with
        | none => pure false
        | some second =>
          let hash := beNat (env.keccak256 (M ++ first ++ second)).val % N
          let sumC := c.reduceOption.foldl (fun (sum : Int) c => (sum + c) % N) 0
          pure ((hash : Int) == sumC)
  | _, _ => .ok false

end SchnorrMpc
