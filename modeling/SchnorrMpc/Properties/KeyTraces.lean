import SchnorrMpc.Mpc.Follow
import SchnorrMpc.Mpc.KeyGeneration
import SchnorrMpc.Properties.KeyFiles

/-!
# Traces of a key generation

The key file of a key generation is written when the step of the group key is
finished. A run that fails earlier leaves the key store as it was. One that
fails in the acknowledgement of the key leaves the key file behind.
-/
namespace SchnorrMpc

open Lib

/-- A node of a group of two, with nothing in its key directory. -/
def traceServer : MpcDistributor :=
  { KeyFileSample.server 2 with storeManIndex := [(1, 0), (2, 1)] }

/-- The leader draws 4 twice, so the seeds are 5 and 6, and deals one; the follower deals zero. -/
def traceChoice : Choice := { Choice.plain 1 [4, 4, 5] with draw := KeyFileSample.draw }

def dealtShares : List Action :=
  traceChoice.moves 10 ++ hears 2 ⟨7, 0, [], [1], []⟩ ++ traceChoice.moves 3
    ++ traceChoice.moves 7
    ++ traceChoice.moves 4 ++ [.messageLoop 2] ++ hears 2 ⟨7, 2, [], [0], []⟩
    ++ traceChoice.moves 2
    ++ ({ traceChoice with orders := ⟨[[(5, 1), (6, 0)]], []⟩ } : Choice).moves 1

/-- The key is computed from both public shares, and the follower's acknowledgement is missing. -/
def lateAcknowledgement : List Action :=
  traceChoice.moves 4 ++ [.messageLoop 3]
    ++ hears 2 ⟨7, 3, [], [KeyFileSample.gpk.1, KeyFileSample.gpk.2], []⟩ ++ traceChoice.moves 2
    ++ ({ traceChoice with
      orders := ⟨[], [[(5, KeyFileSample.gpk), (6, KeyFileSample.gpk)]]⟩ } : Choice).moves 1
    ++ traceChoice.moves 4 ++ [.messageLoop 4] ++ traceChoice.timesOut ++ traceChoice.moves 16

def traceRun (actions : List Action) : Option ContextRun :=
  match createContext ⟨1, 2⟩ .mpcGPKLeader 7 [⟨1, 0⟩, ⟨2, 0⟩] [] with
  | .ok ctx => ContextRun.follow KeyFileSample.env ⟨1, 2⟩
      (fun sender _ => decide (sender ∈ traceServer.storeManGroup)) actions (.start traceServer ctx)
  | _ => none

theorem traceRun_reaches {actions : List Action} {run : ContextRun}
    (followed : traceRun actions = some run) :
    ∃ ctx, createContext ⟨1, 2⟩ .mpcGPKLeader 7 [⟨1, 0⟩, ⟨2, 0⟩] [] = .ok ctx ∧
      ContextRun.Reaches KeyFileSample.env ⟨1, 2⟩
        (fun sender _ => sender ∈ traceServer.storeManGroup) (.start traceServer ctx) run := by
  unfold traceRun at followed
  split at followed
  next ctx created =>
    exact ⟨ctx, created,
      ContextRun.reaches_of_follow (fun _ _ listed => of_decide_eq_true listed) followed⟩
  next => cases followed

private theorem traceRun_late :
    (traceRun (dealtShares ++ lateAcknowledgement)).map
      (fun run => (run.pc, run.srv.keyStore.all.length)) =
      some (.returned (some .errTimeOut), 1) := by
  decide +kernel

end SchnorrMpc
