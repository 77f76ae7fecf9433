import SchnorrMpc.Step.Generators

/-!
# Acknowledgement of a result

The last step of a context: every node tells its peers the result it computed
and compares it with the results it is told.
-/
namespace SchnorrMpc

open Lib S256

/-! ### Acknowledgement of a group key -/

structure AckMpcGPKStep where
  message : Assoc NodeID Bool
  mpcGPK : Bytes
  remoteMpcGPKs : Assoc NodeID Bytes
  deriving DecidableEq, Repr

namespace AckMpcGPKStep

def create : AckMpcGPKStep := ⟨[], [], []⟩

def initStep (ack : AckMpcGPKStep) (store : BaseMpcResult) : Go AckMpcGPKStep := do
  let mpcGPK ← store.getByteValue .mpcContextResult
  pure { ack with mpcGPK }

def createMessage (ack : AckMpcGPKStep) : List OutMessage :=
  [⟨.mpcMessage, none, none, [], [ack.mpcGPK]⟩]

def handleMessage (ack : AckMpcGPKStep) (msg : StepMessage) : Bool × AckMpcGPKStep :=
  match ack.message.lookup msg.peerID with
  | some _ => (false, ack)
  | none =>
    let remoteMpcGPKs := match msg.bytesData with
      | gpk :: _ => Assoc.assign ack.remoteMpcGPKs msg.peerID gpk
      | [] => ack.remoteMpcGPKs
    (true, { ack with remoteMpcGPKs, message := Assoc.assign ack.message msg.peerID true })

/-- Every peer has told a key, and it is the key of this node. -/
def check (ack : AckMpcGPKStep) (peers : List PeerInfo) : Go Unit :=
  if ack.remoteMpcGPKs.length ≠ peers.length then .err .errInvalidMPCAddr
  else if ack.remoteMpcGPKs.all (fun entry => ack.mpcGPK == entry.2) then .ok ()
  else .err .errInvalidMPCAddr

end AckMpcGPKStep

/-! ### Acknowledgement of a signature -/

structure MpcAckRSStep where
  message : Assoc NodeID Bool
  remoteMpcR : Assoc NodeID (Int × Int)
  remoteMpcS : Assoc NodeID Int
  mpcR : Int × Int
  mpcS : Int
  deriving DecidableEq, Repr

namespace MpcAckRSStep

def create : MpcAckRSStep := ⟨[], [], [], (0, 0), 0⟩

def initStep (mars : MpcAckRSStep) (store : BaseMpcResult) : Go MpcAckRSStep := do
  let value ← store.getValue .rPublicKeyResult
  let x ← Outcome.index value 0
  let y ← Outcome.index value 1
  let sValue ← store.getValue .mpcS
  let mpcS ← Outcome.index sValue 0
  pure { mars with mpcR := (x, y), mpcS }

def createMessage (mars : MpcAckRSStep) : List OutMessage :=
  [⟨.mpcMessage, none, none, [mars.mpcS, mars.mpcR.1, mars.mpcR.2], []⟩]

def handleMessage (mars : MpcAckRSStep) (msg : StepMessage) : Bool × MpcAckRSStep :=
  match mars.message.lookup msg.peerID with
  | some _ => (false, mars)
  | none =>
    let (remoteMpcR, remoteMpcS) := match msg.data with
      | s :: x :: y :: _ =>
        (Assoc.assign mars.remoteMpcR msg.peerID (x, y), Assoc.assign mars.remoteMpcS msg.peerID s)
      | _ => (mars.remoteMpcR, mars.remoteMpcS)
    (true, { mars with
      remoteMpcR, remoteMpcS, message := Assoc.assign mars.message msg.peerID true })

/-- The peers' results, then the signature itself. The comparison dereferences both sides, so
a nil coordinate panics; the keys in the log line are encoded before it. -/
def verifyRS (env : Env) (mars : MpcAckRSStep) (store : BaseMpcResult) : Go Unit := do
  if mars.remoteMpcR.any (fun entry => mars.mpcR.1 != entry.2.1 || mars.mpcR.2 != entry.2.2) then
    .err .errInvalidMPCR
  else if mars.remoteMpcS.any (fun entry => mars.mpcS != entry.2) then .err .errInvalidMPCS
  else do
    let M ← store.getByteValue .mpcM
    let hashMBytes := env.sha256 M
    let gpkItem ← store.getValue .publicKeyResult
    let gpkX ← Outcome.index gpkItem 0
    let gpkY ← Outcome.index gpkItem 1
    let gpk : Point := some (gpkX, gpkY)
    let rpk : Point := some mars.mpcR
    let rpkBytes ← fromECDSAPub rpk
    let mTemp := env.sha256 (hashMBytes.val ++ rpkBytes)
    let m : Int := beNat mTemp.val
    let ssG ← env.curve.scalarBaseMult (intBytes mars.mpcS)
    let mgpk ← env.curve.scalarMult gpk (intBytes m)
    let temp ← env.curve.add mgpk rpk
    let _ ← fromECDSAPub temp
    let _ ← fromECDSAPub ssG
    let _ ← fromECDSAPub gpk
    match ssG, temp with
    | some (sx, sy), some (tx, ty) =>
      if sx = tx ∧ sy = ty then .ok () else .err .errVerifyFailed
    | _, _ => .panic

/-- What a verified signature leaves in the result store: `R`, then `S` without padding. -/
def finish (env : Env) (mars : MpcAckRSStep) (store : BaseMpcResult) : Go BaseMpcResult := do
  verifyRS env mars store
  let rpk ← fromECDSAPub (some mars.mpcR)
  pure (store.setByteValue .mpcContextResult (rpk ++ intBytes mars.mpcS))

/-- What holds when the verification returns no error. -/
theorem verifyRS_eq_ok {env : Env} {mars : MpcAckRSStep} {store : BaseMpcResult}
    (verified : verifyRS env mars store = .ok ()) :
    (∀ entry ∈ mars.remoteMpcR, entry.2 = mars.mpcR) ∧
      (∀ entry ∈ mars.remoteMpcS, entry.2 = mars.mpcS) ∧
      ∃ M gpkItem gpkX gpkY rpkBytes mgpk point, store.byteResult .mpcM = some M ∧
        store.result .publicKeyResult = some gpkItem ∧ gpkItem[0]? = some gpkX ∧
        gpkItem[1]? = some gpkY ∧ fromECDSAPub (some mars.mpcR) = .ok rpkBytes ∧
        env.curve.scalarBaseMult (intBytes mars.mpcS) = .ok (some point) ∧
        env.curve.scalarMult (some (gpkX, gpkY))
          (intBytes (beNat (env.sha256 ((env.sha256 M).val ++ rpkBytes)).val)) = .ok mgpk ∧
        env.curve.add mgpk (some mars.mpcR) = .ok (some point) := by
  unfold verifyRS at verified
  split at verified
  · cases verified
  next sameR =>
    split at verified
    · cases verified
    next sameS =>
      simp only [Outcome.bind_eq_ok_iff, Outcome.index_eq_ok_iff,
        BaseMpcResult.getValue_eq_ok_iff, BaseMpcResult.getByteValue_eq_ok_iff] at verified
      obtain ⟨M, isM, gpkItem, isItem, gpkX, isX, gpkY, isY, rpkBytes, encodes, ssG, base, mgpk,
        multiple, temp, sum, _, -, _, -, _, -, compared⟩ := verified
      -- no copy of R differs, and none of S
      have rEqual (entry : NodeID × Int × Int) (member : entry ∈ mars.remoteMpcR) :
          entry.2 = mars.mpcR := by
        by_contra differs
        refine sameR (List.any_eq_true.mpr ⟨entry, member, ?_⟩)
        simp only [Bool.or_eq_true, bne_iff_ne, ne_eq]
        by_contra both
        push Not at both
        exact differs (Prod.ext both.1.symm both.2.symm)
      have sEqual (entry : NodeID × Int) (member : entry ∈ mars.remoteMpcS) :
          entry.2 = mars.mpcS := by
        by_contra differs
        refine sameS (List.any_eq_true.mpr ⟨entry, member, ?_⟩)
        simpa using fun same => differs same.symm
      split at compared
      next sx sy tx ty =>
        split at compared
        next equal =>
          obtain ⟨rfl, rfl⟩ := equal
          exact ⟨rEqual, sEqual, M, gpkItem, gpkX, gpkY, rpkBytes, mgpk, _, isM, isItem, isX, isY,
            encodes, base, multiple, sum⟩
        next => cases compared
      next => cases compared

end MpcAckRSStep
end SchnorrMpc
