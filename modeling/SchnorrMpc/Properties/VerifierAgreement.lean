import SchnorrMpc.Crypto.Reference
import SchnorrMpc.SigVerify.Eos
import SchnorrMpc.Step.AckSteps

/-!
# The three verifiers

The node and the two contracts check one equation. The contracts decide it; the
node has no verdict when its challenge is no scalar of libsecp256k1, or when the
two points it has to add are equal.
-/
namespace SchnorrMpc

open Lib S256 SigVerify

variable {point gpk : Int × Int} {mars : MpcAckRSStep} {M : Bytes}

def signatureChallenge (sha256 : Bytes → Bytes32) (M : Bytes) (R : Int × Int) : Nat :=
  beNat (sha256 ((sha256 M).val ++ 4 :: (bePad 32 R.1.natAbs ++ bePad 32 R.2.natAbs))).val

/-- `s * G = R + m * gpk`. -/
def SignatureEquation (sha256 : Bytes → Bytes32) (M : Bytes) (gpk R : Group) (r : Int × Int)
    (s : Nat) : Prop :=
  s • base = R + signatureChallenge sha256 M r • gpk

namespace MpcAckRSStep

/-- The state in which only the check of the signature is left to do. -/
structure ReadyToVerify (mars : MpcAckRSStep) (store : BaseMpcResult) (gpk : Int × Int)
    (M : Bytes) : Prop where
  sameR : ∀ entry ∈ mars.remoteMpcR, entry.2 = mars.mpcR
  sameS : ∀ entry ∈ mars.remoteMpcS, entry.2 = mars.mpcS
  message : store.byteResult .mpcM = some M
  key : store.result .publicKeyResult = some [gpk.1, gpk.2]

private theorem encoded (onCurve : OnCurve point) :
    fromECDSAPub (some point) =
      .ok (4 :: (bePad 32 point.1.natAbs ++ bePad 32 point.2.natAbs)) :=
  fromECDSAPub_eq onCurve.natAbs_lt.1 onCurve.natAbs_lt.2

private theorem encodes (Q : Group) : ∃ bytes, fromECDSAPub (affine Q) = .ok bytes := by
  cases found : affine Q with
  | none => exact ⟨[], rfl⟩
  | some point => exact ⟨_, encoded (affine_onCurve found)⟩

/-- Without an earlier complaint the verdict is that of the curve operations. -/
private theorem verifyRS_eq {env : Env} {store : BaseMpcResult}
    (ready : ReadyToVerify mars store gpk M) (rOn : OnCurve mars.mpcR) :
    verifyRS env mars store = (do
      let ssG ← env.curve.scalarBaseMult (intBytes mars.mpcS)
      let mgpk ← env.curve.scalarMult (some gpk)
        (natBytes (signatureChallenge env.sha256 M mars.mpcR))
      let temp ← env.curve.add mgpk (some mars.mpcR)
      let _ ← fromECDSAPub temp
      let _ ← fromECDSAPub ssG
      let _ ← fromECDSAPub (some gpk)
      match ssG, temp with
      | some (sx, sy), some (tx, ty) =>
        if sx = tx ∧ sy = ty then .ok () else .err .errVerifyFailed
      | _, _ => .panic) := by
  have noR : mars.remoteMpcR.any
      (fun entry => mars.mpcR.1 != entry.2.1 || mars.mpcR.2 != entry.2.2) = false := by
    simp only [List.any_eq_false, Bool.or_eq_true, bne_iff_ne, not_or, not_not]
    intro entry member
    rw [ready.sameR entry member]
    exact ⟨rfl, rfl⟩
  have noS : mars.remoteMpcS.any (fun entry => mars.mpcS != entry.2) = false := by
    simp only [List.any_eq_false, bne_iff_ne, not_not]
    intro entry member
    exact (ready.sameS entry member).symm
  have message : store.getByteValue .mpcM = .ok M :=
    (BaseMpcResult.getByteValue_eq_ok_iff ..).mpr ready.message
  have key : store.getValue .publicKeyResult = .ok [gpk.1, gpk.2] :=
    (BaseMpcResult.getValue_eq_ok_iff ..).mpr ready.key
  unfold verifyRS
  simp only [noR, noS, Bool.false_eq_true, if_false, message, key, Outcome.ok_bind, encoded rOn,
    Outcome.index, List.getElem?_cons_zero, List.getElem?_cons_succ, intBytes, Int.natAbs_natCast]
  rfl

theorem verifyRS_iff {ecmult : Ecmult} (law : BitCurve.EcmultLaw ecmult)
    (sha256 keccak256 : Bytes → Bytes32) {store : BaseMpcResult}
    (ready : ReadyToVerify mars store gpk M) (keyOn : OnCurve gpk) (rOn : OnCurve mars.mpcR)
    (positive : 0 < mars.mpcS) (below : mars.mpcS < N) :
    verifyRS ⟨BitCurve.curve ecmult, sha256, keccak256⟩ mars store = .ok () ↔
      SignatureEquation sha256 M (ofAffine gpk keyOn) (ofAffine mars.mpcR rOn) mars.mpcR
          mars.mpcS.toNat ∧
        0 < signatureChallenge sha256 M mars.mpcR ∧ signatureChallenge sha256 M mars.mpcR < N ∧
        signatureChallenge sha256 M mars.mpcR • ofAffine gpk keyOn ≠ ofAffine mars.mpcR rOn := by
  have keyFinite := ofAffine_ne_zero keyOn
  have rFinite := ofAffine_ne_zero rOn
  have keyIs := affine_ofAffine keyOn
  have rIs := affine_ofAffine rOn
  obtain ⟨keyBytes, keyEncodes⟩ := encodes (ofAffine gpk keyOn)
  have mFits : signatureChallenge sha256 M mars.mpcR < 256 ^ 32 := beNat_val_lt _
  unfold SignatureEquation
  generalize ofAffine gpk keyOn = K at *
  generalize ofAffine mars.mpcR rOn = R at *
  obtain ⟨m, isM⟩ : ∃ m, signatureChallenge sha256 M mars.mpcR = m := ⟨_, rfl⟩
  have sNat : (mars.mpcS.toNat : Int) = mars.mpcS := Int.toNat_of_nonneg positive.le
  -- S is no multiple of the order, so [S]G is a finite point
  have sFinite : mars.mpcS.toNat • base ≠ 0 := by
    rw [ne_eq, nsmul_eq_zero_iff base_ne_zero]
    exact Nat.not_dvd_of_pos_of_lt (by omega) (by omega)
  have left : (BitCurve.curve ecmult).scalarBaseMult (intBytes mars.mpcS) =
      .ok (affine (mars.mpcS.toNat • base)) := by
    rw [Curve.scalarBaseMult, ← affine_base, intBytes,
      show mars.mpcS.natAbs = mars.mpcS.toNat by omega]
    exact BitCurve.scalarMult_affine law base_ne_zero (by omega) (by omega)
  obtain ⟨leftBytes, leftEncodes⟩ := encodes (mars.mpcS.toNat • base)
  rw [verifyRS_eq ready rOn]
  simp only [isM, left, Outcome.ok_bind, ← keyIs, ← rIs]
  rw [isM] at mFits
  -- the library multiplies by scalars below the order only
  by_cases scalar : 0 < m ∧ m < N
  · have multiple : (BitCurve.curve ecmult).scalarMult (affine K) (natBytes m) =
        .ok (affine (m • K)) := BitCurve.scalarMult_affine law keyFinite scalar.1 scalar.2
    have mFinite : m • K ≠ 0 := by
      rw [ne_eq, nsmul_eq_zero_iff keyFinite]
      exact Nat.not_dvd_of_pos_of_lt scalar.1 scalar.2
    simp only [multiple, Outcome.ok_bind]
    by_cases vertical : m • K = R ∨ m • K = -R
    · -- The sum of equal points is not computed, that of opposite points is infinity.
      have sum : (BitCurve.curve ecmult).add (affine (m • K)) (affine R) = .panic :=
        BitCurve.add_affine_panic vertical
      simp only [sum, Outcome.panic_bind]
      constructor
      · intro absurdity
        cases absurdity
      · rintro ⟨equation, -, -, different⟩
        exfalso
        rcases vertical with same | opposite
        · exact different same
        · rw [opposite, add_neg_cancel] at equation
          exact sFinite equation
    -- the sum is computed, and the check compares its coordinates with those of [S]G
    · have sum : (BitCurve.curve ecmult).add (affine (m • K)) (affine R) =
          .ok (affine (m • K + R)) :=
        BitCurve.add_affine mFinite rFinite (fun same => vertical (.inl same))
          (fun opposite => vertical (.inr opposite))
      have sumFinite : m • K + R ≠ 0 := fun zero =>
        vertical (.inr (eq_neg_of_add_eq_zero_left zero))
      obtain ⟨sumBytes, sumEncodes⟩ := encodes (m • K + R)
      simp only [sum, sumEncodes, leftEncodes, keyEncodes, Outcome.ok_bind]
      obtain ⟨⟨sx, sy⟩, isLeft⟩ := exists_affine_eq sFinite
      obtain ⟨⟨tx, ty⟩, isSum⟩ := exists_affine_eq sumFinite
      have compared : (sx = tx ∧ sy = ty) ↔ mars.mpcS.toNat • base = R + m • K := by
        rw [add_comm R, ← affine_injective.eq_iff, isLeft, isSum, Option.some.injEq, Prod.mk.injEq]
      simp only [isLeft, isSum]
      split
      next same =>
        simpa [← compared, same, scalar] using fun equal => vertical (.inl equal)
      next differ => simp [← compared, differ]
  -- it returns no point for other scalars, and Add panics on it
  · have refused : (BitCurve.curve ecmult).scalarMult (affine K) (natBytes m) = .ok none :=
      BitCurve.scalarMult_refused ecmult keyFinite (by omega) mFits
    have panics : (BitCurve.curve ecmult).add none (affine R) = .panic := rfl
    simp only [refused, Outcome.ok_bind, panics, Outcome.panic_bind]
    constructor
    · intro absurdity
      cases absurdity
    · rintro ⟨-, positive, small, -⟩
      exact absurd ⟨positive, small⟩ scalar

end MpcAckRSStep

/-! ### Agreement -/

/-- The uncompressed form of a point, in lower-case hexadecimal. -/
def hexPoint (point : Int × Int) : Bytes :=
  hexEncode (4 :: (bePad 32 point.1.natAbs ++ bePad 32 point.2.natAbs))

section

variable (ecmult : Ecmult)
  (sha256 keccak256 : Bytes → Bytes32) (contract : Secp256k1Contract) (ops : CurvePointOps)
  (mars : MpcAckRSStep) (store : BaseMpcResult) (gpk : Int × Int) (M : Bytes)

def NodeAccepts : Prop :=
  MpcAckRSStep.verifyRS ⟨BitCurve.curve ecmult, sha256, keccak256⟩ mars store = .ok ()

/-- The contract on Wanchain is given the digest of the message. -/
def WanchainAccepts : Prop :=
  SchnorrVerifier.verify sha256 contract (word mars.mpcS.natAbs) (word gpk.1.natAbs)
    (word gpk.2.natAbs) (word mars.mpcR.1.natAbs) (word mars.mpcR.2.natAbs) (sha256 M) = true

/-- The contract on EOS is given the message. -/
def EosAccepts : Prop :=
  Verifier.verify sha256 ops (hexPoint mars.mpcR) (hexEncode (bePad 32 mars.mpcS.natAbs))
    (hexPoint gpk) (hexEncode M) = some true

/-- The verifiers accept or reject together, and accept what satisfies the equation. -/
structure VerifiersAgree (keyOn : OnCurve gpk) (rOn : OnCurve mars.mpcR) : Prop where
  node_wanchain : NodeAccepts ecmult sha256 keccak256 mars store ↔
    WanchainAccepts sha256 contract mars gpk M
  wanchain_eos : WanchainAccepts sha256 contract mars gpk M ↔ EosAccepts sha256 ops mars gpk M
  node_equation : NodeAccepts ecmult sha256 keccak256 mars store ↔
    SignatureEquation sha256 M (ofAffine gpk keyOn) (ofAffine mars.mpcR rOn) mars.mpcR
      mars.mpcS.toNat

end

section

variable {ecmult : Ecmult}
  {sha256 keccak256 : Bytes → Bytes32} {contract : Secp256k1Contract} {ops : CurvePointOps}
  {mars : MpcAckRSStep} {store : BaseMpcResult} {gpk : Int × Int} {M : Bytes}

private theorem words_ofAffine (onCurve : OnCurve point) :
    words (ofAffine point onCurve) =
      (beNat (word point.1.natAbs).val, beNat (word point.2.natAbs).val) := by
  rw [words, coords_ofAffine, Option.getD_some, word, word,
    beNat_bePad_of_lt onCurve.natAbs_lt.1, beNat_bePad_of_lt onCurve.natAbs_lt.2]

theorem wanchainAccepts_iff (law : contract.Law) (keyOn : OnCurve gpk) (rOn : OnCurve mars.mpcR)
    (positive : 0 < mars.mpcS) (below : mars.mpcS < N) :
    WanchainAccepts sha256 contract mars gpk M ↔
      SignatureEquation sha256 M (ofAffine gpk keyOn) (ofAffine mars.mpcR rOn) mars.mpcR
        mars.mpcS.toNat := by
  have fits : mars.mpcS.natAbs < 256 ^ 32 := by
    have bound : (N : Int) < 256 ^ 32 := by decide +kernel
    omega
  have scalar : beNat (word mars.mpcS.natAbs).val = mars.mpcS.toNat := by
    rw [word, beNat_bePad_of_lt fits]
    omega
  rw [WanchainAccepts,
    SchnorrVerifier.verify_iff law (sha256 M) (words_ofAffine keyOn) (words_ofAffine rOn), scalar]
  rfl

theorem eosAccepts_iff (law : ops.Law) (keyOn : OnCurve gpk) (rOn : OnCurve mars.mpcR)
    (positive : 0 < mars.mpcS) (below : mars.mpcS < N) :
    EosAccepts sha256 ops mars gpk M ↔
      SignatureEquation sha256 M (ofAffine gpk keyOn) (ofAffine mars.mpcR rOn) mars.mpcR
        mars.mpcS.toNat := by
  have scalar : mars.mpcS.natAbs = mars.mpcS.toNat := by omega
  rw [EosAccepts, scalar]
  exact Verifier.verify_iff law M (coords_ofAffine keyOn) (coords_ofAffine rOn) (by omega)
    (by omega)

end

/-! ### Verifiers over computed arithmetic -/

namespace Reference

def ofWords (x y : Nat) : Option (Nat × Nat) := if x = 0 ∧ y = 0 then none else some (x, y)

theorem ofWords_words (Q : Group) :
    ofWords (words Q).1 (words Q).2 = ShortWeierstrass.coords Q := by
  by_cases infinite : Q = 0
  · subst infinite
    rfl
  · have nonzero := words_ne_zero infinite
    obtain ⟨xy, coords⟩ := coords_of_ne_zero infinite
    rw [words, coords, Option.getD_some] at nonzero ⊢
    rw [ofWords, if_neg fun zeros => nonzero (Prod.ext zeros.1 zeros.2)]

def contract : Secp256k1Contract where
  ecmul x y scalar := (multiple (ofWords x y) scalar).getD (0, 0)
  ecadd x1 y1 x2 y2 := (sum (ofWords x1 y1) (ofWords x2 y2)).getD (0, 0)

theorem contract_law : contract.Law where
  ecmul Q scalar fits := by
    simp only [contract, ofWords_words, multiple_coords Q fits]
    rfl
  ecadd Q R := by
    simp only [contract, ofWords_words, sum_coords]
    rfl

def ofNormal (point : CurvePoint) : Option (Nat × Nat) :=
  if point.z = 0 then none else some (point.x, point.y)

def toNormal : Option (Nat × Nat) → CurvePoint
  | none => .zero
  | some (x, y) => ⟨x, y, 1⟩

/-- The operations normalize their results themselves. -/
def ops : CurvePointOps where
  multiply point n := toNormal (multiple (ofNormal point) n)
  add left right := toNormal (sum (ofNormal left) (ofNormal right))
  normalize point := point

theorem ofNormal_normal (Q : Group) : ofNormal (.normal Q) = ShortWeierstrass.coords Q := by
  rw [CurvePoint.normal]
  cases ShortWeierstrass.coords Q with
  | none => rfl
  | some xy => rfl

theorem toNormal_coords (Q : Group) : toNormal (ShortWeierstrass.coords Q) = .normal Q := by
  rw [CurvePoint.normal]
  cases ShortWeierstrass.coords Q with
  | none => rfl
  | some xy => rfl

theorem ops_law : ops.Law where
  multiply Q n fits := by
    simp only [ops, ofNormal_normal, multiple_coords Q fits, toNormal_coords]
  add Q R := by
    simp only [ops, ofNormal_normal, sum_coords, toNormal_coords]

/-! A message, and the two digests of its signatures with the nonce point `G`. -/

def message : Bytes := [119, 97, 110, 99, 104, 97, 105, 110]

def inner : Nat := 0xf76ae2f74b52984faa585c27e55e72cb0b318d71621b448c52012923ad117230

def outer : Nat := 0x9949702496b14ffd54dcffe92928e0c485cf26bcb08769c947b12fb20fd8fffe

def sha256 (input : Bytes) : Bytes32 :=
  if input = message then word inner
  else if input = bePad 32 inner ++ 4 :: (bePad 32 Gx ++ bePad 32 Gy) then word outer
  else word 0

def keccak256 (_ : Bytes) : Bytes32 := word 0

def acknowledgement (s : Int) : MpcAckRSStep := ⟨[], [], [], (Gx, Gy), s⟩

def store (gpk : Int × Int) : BaseMpcResult :=
  (BaseMpcResult.create.setByteValue .mpcM message).setValue .publicKeyResult [gpk.1, gpk.2]

theorem ready (s : Int) (gpk : Int × Int) :
    (acknowledgement s).ReadyToVerify (store gpk) gpk message :=
  ⟨by simp [acknowledgement], by simp [acknowledgement], rfl, rfl⟩

def tripleSignature : Int := 0xcbdc506dc413eff7fe96ffbb7b7aa24ed6be974f624d9d20174130895f54beba

/-- The base point divided by the challenge. -/
def quotient : Int × Int :=
  (0x8ece6b262254abe8d895de61ac155f7d1946ae5ab109e4a1abcd43dfbe895836,
    0x25fcdf6cdf529743b739bd97a3119f1fd3e9ee41a826bdb966c1605855a43e0b)

theorem triple_onCurve : OnCurve triple := by
  constructor <;> decide +kernel

theorem nonce_onCurve (s : Int) : OnCurve (acknowledgement s).mpcR := by
  change OnCurve ((Gx : Int), (Gy : Int))
  constructor <;> decide +kernel

end Reference

/-! ### The exact condition -/

section

variable {ecmult : Ecmult}
  {sha256 keccak256 : Bytes → Bytes32} {contract : Secp256k1Contract} {ops : CurvePointOps}
  {mars : MpcAckRSStep} {store : BaseMpcResult} {gpk : Int × Int} {M : Bytes}

/-- The verifiers agree unless the equation holds and the node cannot evaluate its right side. -/
theorem verifiers_agree_iff (multiplies : BitCurve.EcmultLaw ecmult) (contractLaw : contract.Law)
    (opsLaw : ops.Law) (ready : mars.ReadyToVerify store gpk M) (keyOn : OnCurve gpk)
    (rOn : OnCurve mars.mpcR) (positive : 0 < mars.mpcS) (below : mars.mpcS < N) :
    VerifiersAgree ecmult sha256 keccak256 contract ops mars store gpk M keyOn rOn ↔
      ¬(SignatureEquation sha256 M (ofAffine gpk keyOn) (ofAffine mars.mpcR rOn) mars.mpcR
            mars.mpcS.toNat ∧
          (signatureChallenge sha256 M mars.mpcR = 0 ∨
            N ≤ signatureChallenge sha256 M mars.mpcR ∨
            signatureChallenge sha256 M mars.mpcR • ofAffine gpk keyOn =
              ofAffine mars.mpcR rOn)) := by
  have node := MpcAckRSStep.verifyRS_iff multiplies sha256 keccak256 ready keyOn rOn positive below
  have wanchain : WanchainAccepts sha256 contract mars gpk M ↔ _ :=
    wanchainAccepts_iff contractLaw keyOn rOn positive below
  have eos : EosAccepts sha256 ops mars gpk M ↔ _ :=
    eosAccepts_iff opsLaw keyOn rOn positive below
  constructor
  · rintro ⟨-, -, decided⟩ ⟨equation, excluded⟩
    obtain ⟨-, nonzero, small, different⟩ := node.mp (decided.mpr equation)
    rcases excluded with zero | large | same
    · omega
    · omega
    · exact different same
  · intro evaluated
    have decided : NodeAccepts ecmult sha256 keccak256 mars store ↔
        SignatureEquation sha256 M (ofAffine gpk keyOn) (ofAffine mars.mpcR rOn) mars.mpcR
          mars.mpcS.toNat := by
      refine node.trans ⟨And.left, fun equation => ⟨equation, ?_⟩⟩
      obtain ⟨nonzero, small, different⟩ : signatureChallenge sha256 M mars.mpcR ≠ 0 ∧
          ¬N ≤ signatureChallenge sha256 M mars.mpcR ∧
          signatureChallenge sha256 M mars.mpcR • ofAffine gpk keyOn ≠ ofAffine mars.mpcR rOn := by
        rw [ne_eq, ne_eq, ← not_or, ← not_or]
        exact fun excluded => evaluated ⟨equation, excluded⟩
      exact ⟨Nat.pos_of_ne_zero nonzero, not_le.mp small, different⟩
    exact ⟨decided.trans wanchain.symm, wanchain.trans eos.symm, decided⟩

end

open Reference in
/-- A signature under three times the base point, which all three accept. -/
theorem verifiers_agree_iff_triple :
    VerifiersAgree ecmult Reference.sha256 keccak256 contract ops
        (acknowledgement tripleSignature) (store triple) triple message triple_onCurve
        (nonce_onCurve tripleSignature) ∧
      WanchainAccepts Reference.sha256 contract (acknowledgement tripleSignature) triple
        message := by
  constructor
  · refine (verifiers_agree_iff ecmult_law contract_law ops_law
      (ready tripleSignature triple) triple_onCurve (nonce_onCurve tripleSignature)
      (by decide +kernel) (by decide +kernel)).mpr ?_
    have value : signatureChallenge Reference.sha256 message
        (acknowledgement tripleSignature).mpcR = outer := by
      decide +kernel
    rintro ⟨-, zero | large | same⟩
    · revert zero
      rw [value]
      decide +kernel
    · revert large
      rw [value]
      decide +kernel
    · rw [value] at same
      have coords := congrArg ShortWeierstrass.coords same
      rw [← multiple_coords _ (by decide +kernel), coords_ofAffine, coords_ofAffine] at coords
      revert coords
      decide +kernel
  · unfold WanchainAccepts
    decide +kernel

open Reference in
/-- The challenge times the key is the nonce point itself, so the right side is a doubling. -/
theorem doubled_nonce_panics :
    MpcAckRSStep.verifyRS ⟨BitCurve.curve ecmult, Reference.sha256, keccak256⟩
        (acknowledgement 2) (store quotient) = .panic ∧
      WanchainAccepts Reference.sha256 contract (acknowledgement 2) quotient message ∧
      EosAccepts Reference.sha256 ops (acknowledgement 2) quotient message := by
  refine ⟨by decide +kernel, ?_, ?_⟩
  · unfold WanchainAccepts
    decide +kernel
  · unfold EosAccepts
    decide +kernel

end SchnorrMpc
