import SchnorrMpc.Lib.Primality
import SchnorrMpc.Lib.Bytes
import SchnorrMpc.Lib.Interpolation
import SchnorrMpc.Crypto.Secp256k1
import SchnorrMpc.Crypto.PublicKey
import SchnorrMpc.Crypto.GroupLaw
import SchnorrMpc.Schnorr.BasicFunc
import SchnorrMpc.Schnorr.Recovery
import SchnorrMpc.Protocol.Types
import SchnorrMpc.Step.AckSteps
import SchnorrMpc.Properties.HonestRun
import SchnorrMpc.Crypto.PointTable
import SchnorrMpc.Properties.HonestSigning
import SchnorrMpc.Step.Steps
import SchnorrMpc.Mpc.Context
import SchnorrMpc.Lib.Hex
import SchnorrMpc.Keystore.Key
import SchnorrMpc.Keystore.Store
import SchnorrMpc.Mpc.Distributor
import SchnorrMpc.Lib.Prog
import SchnorrMpc.Validator.Validator
import SchnorrMpc.Mpc.Request
import SchnorrMpc.Properties.Requests
import SchnorrMpc.Keystore.RoundTrip
import SchnorrMpc.Keystore.Index
import SchnorrMpc.Properties.KeyFiles
import SchnorrMpc.Lib.Threads
import SchnorrMpc.Validator.Spec
import SchnorrMpc.Properties.Approval
import SchnorrMpc.Validator.Queue
import SchnorrMpc.Properties.ApprovalQueue
import SchnorrMpc.Lib.Network
import SchnorrMpc.Mpc.Run
import SchnorrMpc.Step.Kinds
import SchnorrMpc.Mpc.View
import SchnorrMpc.Mpc.Progress
import SchnorrMpc.Mpc.Follow
import SchnorrMpc.Properties.SignRun
import SchnorrMpc.Mpc.KeyGeneration
import SchnorrMpc.Properties.KeyTraces
import SchnorrMpc.Mpc.Mail
import SchnorrMpc.Mpc.KeyMessages
import SchnorrMpc.Mpc.Group
import SchnorrMpc.Mpc.Schedule
import SchnorrMpc.Properties.KeyAgreement
import SchnorrMpc.Mpc.KeyPoints
import SchnorrMpc.Properties.KeySharing
import SchnorrMpc.Lib.Base64
import SchnorrMpc.Lib.Trace
import SchnorrMpc.Properties.ApprovalRaces
import SchnorrMpc.Mpc.Registry
import SchnorrMpc.Properties.ContextRegistry
import SchnorrMpc.SigVerify.Uint256
import SchnorrMpc.Properties.SignatureFormat
import SchnorrMpc.Lib.ShortWeierstrass
import SchnorrMpc.Crypto.CurveGroup
import SchnorrMpc.SigVerify.SchnorrVerifier
import SchnorrMpc.SigVerify.Eos
import SchnorrMpc.Properties.VerifierAgreement
import SchnorrMpc.Mpc.MessageLoop
import SchnorrMpc.Properties.Counting
import SchnorrMpc.Properties.Outsiders
import SchnorrMpc.Lib.Mailbox
import SchnorrMpc.Mpc.Transitions
import SchnorrMpc.Properties.ChannelRoom
import SchnorrMpc.Properties.Gates
import SchnorrMpc.Properties.SignGate
import SchnorrMpc.Mpc.Dealing
import SchnorrMpc.Properties.NonceShares
import SchnorrMpc.Crypto.Reference
import SchnorrMpc.Properties.Interpolation
import SchnorrMpc.Properties.StepMessages
import SchnorrMpc.Properties.PeerLists
import SchnorrMpc.Properties.ApprovalReports
import SchnorrMpc.Properties.RequestCrashes
import SchnorrMpc.Storeman.PeerTable
import SchnorrMpc.Properties.PeerTable
import SchnorrMpc.Lib.Reader
import SchnorrMpc.Lib.Rlp
import SchnorrMpc.Rlp.Encode
import SchnorrMpc.Rlp.Merge
import SchnorrMpc.Rlp.Decode
import SchnorrMpc.Rlp.RoundTrip
import SchnorrMpc.Rlp.Canonical
import SchnorrMpc.Properties.WireFormat
import SchnorrMpc.Lib.SecretSharing
import SchnorrMpc.Properties.Secrecy
import SchnorrMpc.Properties.StepRoundTrip
import SchnorrMpc.Properties.DatabaseKeys
import SchnorrMpc.Schnorr.KeyText
import SchnorrMpc.Properties.KeyParsing
import SchnorrMpc.Properties.CipherFiles
import SchnorrMpc.Keystore.Reencrypt
import SchnorrMpc.Properties.Reencryption
import SchnorrMpc.Lib.Inet
import SchnorrMpc.P2p.Node
import SchnorrMpc.Storeman.AddressBook
import SchnorrMpc.Properties.AddressBook
import SchnorrMpc.Crypto.RingSign
import SchnorrMpc.Properties.RingSignature
import SchnorrMpc.Crypto.OneTimeKey
import SchnorrMpc.Properties.OneTimeKeys
import SchnorrMpc.Mpc.Deployment
import SchnorrMpc.Properties.Ledger
import SchnorrMpc.Properties.Posting
import SchnorrMpc.Properties.Delivery
import SchnorrMpc.Properties.Standstill
import SchnorrMpc.Properties.Quiescence
import SchnorrMpc.Properties.Termination
import SchnorrMpc.Properties.KeyDealing
import SchnorrMpc.Properties.NonceUse
import SchnorrMpc.Lib.Cipher
import SchnorrMpc.Lib.Codec
import SchnorrMpc.P2p.Frame
import SchnorrMpc.Properties.Connection
