import Mathlib.Data.List.Perm.Basic

/-!
# The cluster configuration

`replication/cluster_config.hpp`: the settings of a broker, the addresses of all
brokers of the cluster among them. How the addresses are read from a file is in
`Fell.Broker.PeerList`; the parser of the file and the other settings are not
modelled.
-/

namespace Fell.Replication

/-- `BrokerAddr`. -/
structure BrokerAddr where
  brokerId : UInt32
  host : String
  replPort : UInt16
  clientPort : UInt16
  deriving DecidableEq

/-- `ClusterConfig`. -/
structure ClusterConfig where
  brokerId : UInt32
  dataDir : String
  clientPort : UInt16
  replPort : UInt16
  /-- All brokers in the cluster, including this one. -/
  peers : List BrokerAddr
  replicationFactor : UInt32
  /-- `1` for the leader only, `-1` for the ISR. -/
  acks : Int
  heartbeatIntervalMs : UInt32
  heartbeatTimeoutMs : UInt32
  maxLagMessages : UInt64
  deriving DecidableEq

namespace ClusterConfig

/-- `ClusterConfig::load` of the empty path. -/
def loadDefault : ClusterConfig where
  brokerId := 0
  dataDir := "fell-data"
  clientPort := 7700
  replPort := 8700
  peers :=
    [⟨0, "127.0.0.1", 8700, 7700⟩, ⟨1, "127.0.0.1", 8701, 7701⟩, ⟨2, "127.0.0.1", 8702, 7702⟩]
  replicationFactor := 3
  acks := 1
  heartbeatIntervalMs := 500
  heartbeatTimeoutMs := 1500
  maxLagMessages := 1000

/-- The configuration of the broker `i` of `n`, as `peers` is documented: the brokers
    have the ids below `n`, and `peers` lists all of them. -/
structure Describes (cfg : ClusterConfig) (n i : ℕ) : Prop where
  brokerId_eq : cfg.brokerId.toNat = i
  peers_perm : (cfg.peers.map (·.brokerId.toNat)).Perm (List.range n)

variable {cfg : ClusterConfig} {n i : ℕ}

theorem Describes.length_peers (h : cfg.Describes n i) : cfg.peers.length = n := by
  simpa using h.peers_perm.length_eq

/-- The ids have 32 bits. -/
theorem Describes.le_size (h : cfg.Describes n i) : n ≤ UInt32.size := by
  rcases Nat.eq_zero_or_pos n with rfl | hn
  · exact Nat.zero_le _
  · have hmem : n - 1 ∈ cfg.peers.map (·.brokerId.toNat) :=
      h.peers_perm.mem_iff.2 (List.mem_range.2 (by omega))
    obtain ⟨peer, _, hpeer⟩ := List.mem_map.1 hmem
    have := peer.brokerId.toNat_lt
    simp only [UInt32.size]
    omega

example : loadDefault.Describes 3 0 := ⟨rfl, .refl _⟩

end ClusterConfig

end Fell.Replication
