import SclRs.Lib.TimeQueue
import SclRs.Net.Packet
import SclRs.Net.Simulation.Event
import SclRs.Net.Network
import SclRs.Net.Simulation.Switchboard
import SclRs.Net.Simulation.Executor
import SclRs.Net.Simulation.Moves
import SclRs.Net.Simulation.Delivery
import SclRs.Net.Simulation.Causality
import SclRs.Net.Simulation.Wakeup
import SclRs.Net.Simulation.Deadline
import SclRs.Lib.CompleteAddition
import SclRs.Lib.Pratt
import SclRs.Math.Field.Moduli
import SclRs.Math.Field.Secp256k1
import SclRs.Math.Field.Naf
import SclRs.Math.Ec.Secp256k1
import SclRs.Math.Ec.GroupLaw
import SclRs.Lib.Interpolation
import SclRs.Math.Ec.ScalarMul
import SclRs.Math.Poly
import SclRs.Ss.Shamir
import SclRs.Math.Ec
import SclRs.Math.Ec.TryFrom
import SclRs.Ss.Feldman
import SclRs.Ss.FeldmanPanics
import SclRs.Ss.FeldmanDealing
import SclRs.Lib.Codec
import SclRs.Ss.FeldmanWire
import SclRs.Lib.Confluence
import SclRs.Net.Async
import SclRs.Net.Simulation.Refinement
import SclRs.Net.Script
import SclRs.Ss.Additive
import SclRs.Ss.ShamirSharing
import SclRs.Lib.Checked
import SclRs.Math.Field.Mersenne61
import SclRs.Lib.Euclid
import SclRs.Math.Field.Canonical
import SclRs.Ss.ShamirPrivacy
import SclRs.Ss.ShamirLinear
import SclRs.Ss.LinearExpr
import SclRs.Lib.Vandermonde
import SclRs.Math.Matrix
import SclRs.Protocol.PassiveShamir.Extraction
import SclRs.Net.Leads
import SclRs.Protocol
import SclRs.Protocol.Share.Deal
import SclRs.Protocol.Share.Open
import SclRs.Protocol.Share.Sequential
import SclRs.Protocol.Share.Composition
import SclRs.Protocol.Share.RoundTrip
import SclRs.Protocol.PassiveShamir.OpenKing
import SclRs.Protocol.PassiveShamir.Triple
import SclRs.Protocol.PassiveShamir.Mul
import SclRs.Protocol.PassiveShamir.RandShare
import SclRs.Protocol.PassiveShamir.DoubleRandShare
import SclRs.Lib.LengthDelimited
import SclRs.Net.Tcp
import SclRs.Net.Invocation
import SclRs.Net.Simulation.Bandwidth
import SclRs.Net.Simulation.Profile
import SclRs.Ss.Threshold
import SclRs.Lib.Rejection
import SclRs.Math.Field.Division
import SclRs.Math.Field.Sampling
import SclRs.Math.Matrix.Scalar
import SclRs.Math.Field.Exact
import SclRs.Math.Matrix.Algebra
import SclRs.Math.Matrix.Shares
import SclRs.Math.Containers
import SclRs.Ss.ShamirPoints
import SclRs.Lib.FixedSum
import SclRs.Ss.AdditivePrivacy
import SclRs.Protocol.PassiveShamir.OpenRounds
import SclRs.Lib.Insertions
import SclRs.Net.TcpCreate
import SclRs.Net.Mesh
import SclRs.Net.TcpNetwork
import SclRs.Net.TcpRecv
import SclRs.Net.Addressing
import SclRs.Lib.Acyclic
import SclRs.Net.CircularWait
import SclRs.Protocol.Share.InputPhase
import SclRs.Protocol.Share.PartyOrder
import SclRs.Math.Pow
import SclRs.Net.Timeouts
import SclRs.Lib.CurveOrder
import SclRs.Math.Ec.Order
import SclRs.Examples.SchnorrPok
import SclRs.Net.Sequence
import SclRs.Protocol.Sequence
import SclRs.Examples.SecureSum
import SclRs.Protocol.PassiveShamir.Phases
import SclRs.Examples.SecureCovariance
import SclRs.Net.Simulation.Timing
import SclRs.Ss.FeldmanBinding
import SclRs.Examples.SecureSumPrivacy
import SclRs.Protocol.PassiveShamir.Masking
import SclRs.Protocol.PassiveShamir.RandPrivacy
import SclRs.Net.Portable
import SclRs.Net.Sockets
import SclRs.Net.SocketRefinement
import SclRs.Net.SendMany
import SclRs.Examples.SecureSumSockets
import SclRs.Math.Field.Unreduced
import SclRs.Math.Poly.Checked
import SclRs.Ss.ShamirThreshold
import SclRs.Math.Matrix.Checked
