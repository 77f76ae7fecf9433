import SchnorrMpc.Keystore.Key
import SchnorrMpc.Lib.Inet
import SchnorrMpc.Protocol.Types

/-!
# Node URLs

A node of the network is named by a URL: its id as the user, its address and TCP
port as the host. Without an address the id stands alone.
-/
namespace SchnorrMpc

open Lib

namespace Discover

/-- The cached hash and the time are left out. -/
structure Node where
  ip : Option IP
  udp : UInt16
  tcp : UInt16
  id : NodeID
  deriving DecidableEq, Repr

/-- A URL as `url.Parse` takes it apart, with the `discport` of its query or the empty string. -/
structure URL where
  scheme : Bytes
  user : Option Bytes
  host : Bytes
  discport : Bytes
  deriving DecidableEq, Repr

/-- What is parsed by the Go library. -/
structure UrlEnv where
  parse : Bytes → Except Err URL
  parseIPv6 : Bytes → Option IP

def hexID (text : Bytes) : Except Err NodeID :=
  let digits := if text.take 2 = utf8 "0x" then text.drop 2 else text
  match hexDecode digits with
  | .error error => .error (HexError.err error)
  | .ok bytes =>
    if bytes.length ≠ 64 then .error (.new (utf8 "wrong length, want 128 hex chars"))
    else .ok (.ofNat 512 (beNat bytes))

/-- `ParseUint` for 16 bits. -/
def parsePort (text : Bytes) : Option UInt16 := do
  let value ← decimalValue text
  if value < 2 ^ 16 then some (.ofNat value) else none

/-- What `incompleteNodeURL` matches: the id in it. -/
def incompleteNodeURL (rawurl : Bytes) : Option Bytes :=
  let digits := if (rawurl.take 8).map lowerCase = utf8 "enode://" then rawurl.drop 8 else rawurl
  if digits ≠ [] ∧ digits.all fun char => (hexValue char).isSome then some digits else none

def hostPortError (hostport : Bytes) (error : HostPortError) : Bytes :=
  let text := match error with
    | .missingPort => "missing port in address"
    | .tooManyColons => "too many colons in address"
    | .missingBracket => "missing ']' in address"
    | .missingBrackets => "missing brackets in address"
    | .unexpectedOpening => "unexpected '[' in address"
    | .unexpectedClosing => "unexpected ']' in address"
  if hostport = [] then utf8 text else utf8 "address " ++ hostport ++ utf8 ": " ++ utf8 text

def invalidID (error : Err) : Err := .new (utf8 "invalid node ID (" ++ error.error ++ utf8 ")")

def parseComplete (env : UrlEnv) (rawurl : Bytes) : Except Err Node := do
  let url ← env.parse rawurl
  if url.scheme ≠ utf8 "enode" then
    throw (.new (utf8 "invalid URL scheme, want \"enode\""))
  match url.user with
  | none => throw (.new (utf8 "does not contain node ID"))
  | some user =>
    let id ← (hexID user).mapError invalidID
    let (host, port) ← (splitHostPort url.host).mapError fun error =>
      .new (utf8 "invalid host: " ++ hostPortError url.host error)
    match IP.parseIP env.parseIPv6 host with
    | none => throw (.new (utf8 "invalid IP address"))
    | some ip =>
      match parsePort port with
      | none => throw (.new (utf8 "invalid port"))
      | some tcp =>
        if url.discport = [] then pure ⟨some ip, tcp, tcp, id⟩
        else
          match parsePort url.discport with
          | none => throw (.new (utf8 "invalid discport in query"))
          | some udp => pure ⟨some ip, udp, tcp, id⟩

def parseNode (env : UrlEnv) (rawurl : Bytes) : Except Err Node :=
  match incompleteNodeURL rawurl with
  | some digits => do
    let id ← (hexID digits).mapError invalidID
    pure ⟨none, 0, 0, id⟩
  | none => parseComplete env rawurl

end Discover
end SchnorrMpc
