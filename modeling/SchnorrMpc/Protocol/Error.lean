import SchnorrMpc.Lib.Bytes

/-! The errors of the storeman protocol, with the texts that peers receive. -/
namespace SchnorrMpc

open Lib

/-- The bytes of a string constant. -/
def utf8 (text : String) : Bytes := text.toUTF8.data.toList

inductive Err where
  | errQuit
  | errMpcResultExist
  | errContextType
  | errTimeOut
  | errPointZero
  | errMpcSeedOutRange
  | errMpcSeedDuplicate
  | errTooLessStoreman
  | errFailedDataVerify
  | errFailedAddApproving
  | errMpcContextExist
  | errInvalidMPCAddr
  | errInvalidMPCR
  | errInvalidMPCS
  | errVerifyFailed
  | errGetDb
  | errWaitApproved
  | errGetApproved
  | errMarshal
  | errApprovedNotConsistent
  | errTooLessDataCollected
  /-- An error made on the spot by `errors.New`, or one of another package. -/
  | new (text : Bytes)
  deriving DecidableEq, Repr

/-- The text that `Error` returns; it is what an `MPCError` message carries. -/
def Err.error : Err → Bytes
  | errQuit => utf8 "quit"
  | errMpcResultExist => utf8 "mpc Result is not exist"
  | errContextType => utf8 "err Context Type is error"
  | errTimeOut => utf8 "mpc Request is TimeOut"
  | errPointZero => utf8 "mpc Point is zero"
  | errMpcSeedOutRange => utf8 "mpc seeds are out range"
  | errMpcSeedDuplicate => utf8 "mpc seeds have duplicate"
  | errTooLessStoreman => utf8 "mpc alive Storeman is not enough"
  | errFailedDataVerify => utf8 "mpc signing data validate failed"
  | errFailedAddApproving => utf8 "mpc add approving data failed"
  | errMpcContextExist => utf8 "mpc Context ID is already exist"
  | errInvalidMPCAddr => utf8 "invalid mpc account address"
  | errInvalidMPCR => utf8 "invalid signed data(R)"
  | errInvalidMPCS => utf8 "invalid signed data(S)"
  | errVerifyFailed => utf8 "verify failed"
  | errGetDb => utf8 "get database failed"
  | errWaitApproved => utf8 "wait for being approved failed"
  | errGetApproved => utf8 "get being approved failed"
  | errMarshal => utf8 "marshal data failed"
  | errApprovedNotConsistent => utf8 "not equal,received  data and approved data in DB"
  | errTooLessDataCollected => utf8 "not enough data collected"
  | new text => text

/-- The result of a Go call: a value, an `error`, or a run-time panic. -/
abbrev Go (α : Type) := Outcome Err α

end SchnorrMpc
