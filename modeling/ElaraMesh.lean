import ElaraMesh.Consensus.Cascade
import ElaraMesh.Consensus.Clusters
import ElaraMesh.Consensus.Committee
import ElaraMesh.Consensus.Decay
import ElaraMesh.Consensus.EpochCommittee
import ElaraMesh.Consensus.FinalizedIndex
import ElaraMesh.Consensus.SealCommittee
import ElaraMesh.Consensus.Splitting
import ElaraMesh.Dag.Acyclic
import ElaraMesh.Dag.Ancestors
import ElaraMesh.Dag.Rebuild
import ElaraMesh.Delegation.Authority
import ElaraMesh.Delegation.Caps
import ElaraMesh.Delegation.Replay
import ElaraMesh.Dht.Closest
import ElaraMesh.Epoch.Anchors
import ElaraMesh.Epoch.Tip
import ElaraMesh.Epoch.Window
import ElaraMesh.Governance.Cap
import ElaraMesh.Governance.Conviction
import ElaraMesh.Governance.Counters
import ElaraMesh.Itc.Causality
import ElaraMesh.Itc.Codec
import ElaraMesh.Ledger.Transport
import ElaraMesh.Light.Checkpoints
import ElaraMesh.Light.Headers
import ElaraMesh.Mandate.Address
import ElaraMesh.Mandate.Attenuation
import ElaraMesh.Mandate.Revocation
import ElaraMesh.Network.Dispute
import ElaraMesh.Network.Equivocation
import ElaraMesh.Network.FishermanSlash
import ElaraMesh.Network.KeyRotation
import ElaraMesh.Network.Replay
import ElaraMesh.Network.RewardSweep
import ElaraMesh.Network.Slashing
import ElaraMesh.Record.Relay
import ElaraMesh.Seal.Attach
import ElaraMesh.Seal.CommitteeTree
import ElaraMesh.Sync.Bloom
import ElaraMesh.ZoneTree.Keys
import ElaraMesh.ZoneTree.Views
import ElaraMesh.Zones.Store
