import SchnorrMpc.Mpc.Request
import SchnorrMpc.Properties.HonestSigning
import SchnorrMpc.SigVerify.Uint256

/-!
# The format of a returned signature

`R` has a fixed width and `S` does not. The bytes of `S` are the 32 that the
verifiers read exactly when the first of the 32 is not zero.
-/
namespace SchnorrMpc

open Lib S256 SigVerify

/-- What verifiers expect: `R` in 65 bytes and `S` in 32, which are the 64 digits of a number. -/
def FixedWidth (result : Go SignedResult) (R : Int × Int) (S : Int) : Prop :=
  ∃ signed, result = .ok signed ∧ signed.r.length = 65 ∧ toECDSAPub signed.r = some R ∧
    signed.s.length = 32 ∧ (beNat signed.s : Int) = S ∧ uint256 (hexEncode signed.s) = some S.natAbs

theorem length_intBytes_iff {S : Int} (nonneg : 0 ≤ S) (small : S < N) :
    (intBytes S).length = 32 ↔ 256 ^ 31 ≤ S := by
  have below : S.natAbs < 256 ^ 32 := by
    have bound : (N : Int) < 256 ^ 32 := by decide
    omega
  rw [intBytes, length_natBytes]
  constructor
  · intro full
    by_contra low
    have short := byteLen_le (show S.natAbs < 256 ^ 31 by omega)
    omega
  · intro high
    have most := byteLen_le below
    by_contra other
    have long := lt_pow_byteLen S.natAbs
    have power : 256 ^ byteLen S.natAbs ≤ 256 ^ 31 :=
      Nat.pow_le_pow_right (by decide) (by omega)
    omega

theorem fixedWidth_signWith {cfg : Config} {storemanPeers : Nat} {byApprove : Int}
    {createReqMpcSign : Int → Go Bytes} {R : Int × Int} {S : Int}
    (enough : cfg.mpcSchnrThr ≤ storemanPeers + 1) (onCurve : OnCurve R) (positive : 0 < S)
    (small : S < N) {rpk : Bytes} (encodes : fromECDSAPub (some R) = .ok rpk)
    (returned : createReqMpcSign byApprove = .ok (rpk ++ intBytes S)) :
    FixedWidth (signWith cfg storemanPeers byApprove createReqMpcSign) R S ↔ 256 ^ 31 ≤ S := by
  obtain ⟨rpk', encodes', length, decodes⟩ := toECDSAPub_fromECDSAPub onCurve
  obtain rfl : rpk' = rpk := Outcome.ok.inj (encodes'.symm.trans encodes)
  have split : signWith cfg storemanPeers byApprove createReqMpcSign =
      .ok ⟨rpk', intBytes S⟩ := by
    rw [signWith, if_neg (by omega), returned, Outcome.ok_bind, splitSigned,
      if_neg (by simp [length])]
    simp [length]
  rw [← length_intBytes_iff positive.le small, split]
  constructor
  · rintro ⟨signed, same, -, -, width, -⟩
    cases same
    exact width
  · intro width
    have value : (beNat (intBytes S) : Int) = S := by
      rw [intBytes, beNat_natBytes]
      omega
    refine ⟨_, rfl, length, decodes, width, value, ?_⟩
    rw [uint256_hexEncode, if_pos width, intBytes, beNat_natBytes]

/-- The signature that a context has left is returned in the form that verifiers read exactly when
`S` fills 32 bytes. -/
theorem returned_signature_fixedWidth_iff (env : Env) (cfg : Config) (storemanPeers : Nat)
    (enough : cfg.mpcSchnrThr ≤ storemanPeers + 1) (mars : MpcAckRSStep)
    (store store' : BaseMpcResult) (onCurve : OnCurve mars.mpcR) (positive : 0 < mars.mpcS)
    (small : mars.mpcS < N) (finished : mars.finish env store = .ok store')
    (createReqMpcSign : Int → Go Bytes)
    (returned : ∀ byApprove, createReqMpcSign byApprove =
      .ok ((store'.byteResult .mpcContextResult).getD [])) :
    (FixedWidth (signData cfg storemanPeers createReqMpcSign) mars.mpcR mars.mpcS ↔
      256 ^ 31 ≤ mars.mpcS) ∧
    (FixedWidth (signDataByApprove cfg storemanPeers createReqMpcSign) mars.mpcR mars.mpcS ↔
      256 ^ 31 ≤ mars.mpcS) := by
  rw [MpcAckRSStep.finish, Outcome.bind_eq_ok_iff] at finished
  obtain ⟨_, -, finished⟩ := finished
  rw [Outcome.bind_eq_ok_iff] at finished
  obtain ⟨rpk, encodes, built⟩ := finished
  cases built
  have left (byApprove : Int) : createReqMpcSign byApprove = .ok (rpk ++ intBytes mars.mpcS) := by
    rw [returned byApprove]
    simp
  exact ⟨fixedWidth_signWith enough onCurve positive small encodes (left 0),
    fixedWidth_signWith enough onCurve positive small encodes (left 1)⟩

/-- A full signature: the one of two nodes with threshold two. -/
theorem returned_signature_fixedWidth_iff_twoNodes :
    FixedWidth (signData HonestRun.twoNodeConfig 1 fun _ =>
      fromECDSAPub (some HonestRun.twoNodeAck.mpcR) >>= fun rpk =>
        .ok (rpk ++ intBytes HonestRun.twoNodeAck.mpcS))
      HonestRun.twoNodeAck.mpcR HonestRun.twoNodeAck.mpcS := by
  have onCurve : OnCurve HonestRun.twoNodeAck.mpcR := by
    constructor <;> decide +kernel
  have verified : HonestRun.twoNodeAck.verifyRS HonestRun.twoNodeEnv HonestRun.twoNodeStore =
      .ok () := by decide +kernel
  obtain ⟨rpk, encodes, -, -⟩ := toECDSAPub_fromECDSAPub onCurve
  have finished : HonestRun.twoNodeAck.finish HonestRun.twoNodeEnv HonestRun.twoNodeStore =
      .ok (HonestRun.twoNodeStore.setByteValue .mpcContextResult
        (rpk ++ intBytes HonestRun.twoNodeAck.mpcS)) := by
    rw [MpcAckRSStep.finish, verified, encodes]
    rfl
  refine (returned_signature_fixedWidth_iff HonestRun.twoNodeEnv HonestRun.twoNodeConfig 1
    (by decide) HonestRun.twoNodeAck HonestRun.twoNodeStore _ onCurve (by decide) (by decide)
    finished _ fun byApprove => ?_).1.mpr (by decide)
  simp [encodes]

/-! ### A short signature -/

/-- The multiples of the base point in the signature `5` of the message `01` with `R = 2 G`. -/
def shortTable : PointTable where
  entries := [
    (1, Gx, Gy), (2, double), (3, triple),
    (5,
      0x2f8bde4d1a07209355b4a7250a5c5128e88b84bddc619ab7cba8d569b240efe4,
      0xd8ac222636e5e3d6d4dba9dda6c9c426f788271bab0d6840dca87d3aa6ac62d6),
    (0x5b493332eebfbb0359b7557c8e44bdd48811a8b98f88cec02b0e99b23160ac34,
      0xc91da7b3caf2d3affcfefc6072af60a136056309cd6c49ae8384f8e785bb2e08,
      0xff82424a594d162ca39bbb37f249e5368c5ade3a9adff46975f29fdd18d806b9)]
  multiples := by decide
  range := by decide
  distinct := by decide
  base := by decide

def shortEnv : Env := { HonestRun.twoNodeEnv with curve := shortTable.curve }

def shortStore : BaseMpcResult :=
  (BaseMpcResult.create.setByteValue .mpcM [1]).setValue .publicKeyResult
    [0xc91da7b3caf2d3affcfefc6072af60a136056309cd6c49ae8384f8e785bb2e08,
      0xff82424a594d162ca39bbb37f249e5368c5ade3a9adff46975f29fdd18d806b9]

def shortAck : MpcAckRSStep :=
  { MpcAckRSStep.create with
    mpcR := double
    mpcS := 5 }

/-- The signature verifies, and one byte of `S` is returned. -/
theorem short_signature_not_fixedWidth :
    OnCurve shortAck.mpcR ∧ 0 < shortAck.mpcS ∧ shortAck.mpcS < N ∧
      ∃ store', shortAck.finish shortEnv shortStore = .ok store' ∧
        ¬FixedWidth (signData ⟨2, 2⟩ 1 fun _ =>
          .ok ((store'.byteResult .mpcContextResult).getD [])) shortAck.mpcR shortAck.mpcS := by
  have onCurve : OnCurve shortAck.mpcR := by
    constructor <;> decide +kernel
  have verified : shortAck.verifyRS shortEnv shortStore = .ok () := by decide +kernel
  obtain ⟨rpk, encodes, -, -⟩ := toECDSAPub_fromECDSAPub onCurve
  refine ⟨onCurve, by decide, by decide,
    shortStore.setByteValue .mpcContextResult (rpk ++ intBytes shortAck.mpcS), ?_, ?_⟩
  · rw [MpcAckRSStep.finish, verified, encodes]
    rfl
  · rw [signData, fixedWidth_signWith (by decide) onCurve (by decide) (by decide) encodes (by simp)]
    decide

end SchnorrMpc
