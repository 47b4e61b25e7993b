import WarmLogic.Consensus.BftCommitSurvival
import WarmLogic.Consensus.WalFidelity
import WarmLogic.Consensus.RaftQuorum
import WarmLogic.Consensus.RaftSafety
import WarmLogic.Consensus.RaftSnapshot
import WarmLogic.Consensus.RaftMembership
import WarmLogic.Consensus.RaftVoteDurability
import WarmLogic.Consensus.RaftRestart
import WarmLogic.Net.PropagatorStateRoot
import WarmLogic.Ledger.LedgerRuns
import WarmLogic.Federation.Convergence
import WarmLogic.Federation.StateMerkle
import WarmLogic.Federation.StateMerkleShape
import WarmLogic.Federation.RemoteVersions
import WarmLogic.Federation.MessageFraming
import WarmLogic.Federation.ClockAlgebra
import WarmLogic.Federation.ClockEncoding
import WarmLogic.Net.PropagatorOrder
import WarmLogic.Net.PropagatorViewChange
import WarmLogic.Consensus.ByzantineVerdicts
import WarmLogic.Consensus.Accountability
import WarmLogic.Net.NoiseTransport
import WarmLogic.Economics.Settlement
import WarmLogic.Grid.Holographic
import WarmLogic.Drone.SecurityScheduler
import WarmLogic.Drone.PqcCommand
import WarmLogic.Ledger.LedgerSync
import WarmLogic.Ledger.MiningFailure
import WarmLogic.Crypto.MerkleBinding
import WarmLogic.Governance.VetoRuns
import WarmLogic.Net.HandshakeRuns
import WarmLogic.Net.HandshakeCodec
import WarmLogic.Net.Reassembly
import WarmLogic.Governance.VotingRuns
import WarmLogic.Governance.VotingClose
import WarmLogic.Governance.LockedStake
import WarmLogic.Kernel.FailedCommit
import WarmLogic.Kernel.Zanzibar
import WarmLogic.Kernel.ServiceQuorum
import WarmLogic.Federation.RegionConvergence
import WarmLogic.Mesh.AntiEntropy
import WarmLogic.Mesh.RoutingInvariant
import WarmLogic.Ledger.ForensicMirror
import WarmLogic.Kernel.ForensicAudit
import WarmLogic.Kernel.Propagation
import WarmLogic.Federation.BatchCodec
import WarmLogic.Kernel.BlobStore
import WarmLogic.Consensus.Equivocation
import WarmLogic.Consensus.BftBatch
import WarmLogic.Consensus.BftBudget
import WarmLogic.Consensus.ByzantineSlices
import WarmLogic.Net.PropagatorSignData
import WarmLogic.Consensus.WalRecovery
import WarmLogic.Consensus.RaftPureAppend
import WarmLogic.Consensus.RaftLogAccess
import WarmLogic.Lib.Nearest
import WarmLogic.Mesh.KademliaTable
import WarmLogic.Mesh.DiscoveryAgent
import WarmLogic.Lib.Spacing
import WarmLogic.Net.RateLimiter
import WarmLogic.Net.UdpEngine
import WarmLogic.Federation.Payloads
import WarmLogic.Federation.Handshake
import WarmLogic.Net.RaftNet
import WarmLogic.Lib.HashChain
import WarmLogic.Security.AuditTrail
import WarmLogic.Lib.Service
import WarmLogic.Ledger.EncryptedStore
import WarmLogic.Consensus.Slashing
import WarmLogic.Execution.DependencyTracker
import WarmLogic.Lib.R1cs
import WarmLogic.Lib.PrimeField
import WarmLogic.Zk.Types
import WarmLogic.Zk.Gadgets
import WarmLogic.Zk.Transition
import WarmLogic.Zk.Governance
import WarmLogic.Zk.Mlp
import WarmLogic.Lib.Binary64
