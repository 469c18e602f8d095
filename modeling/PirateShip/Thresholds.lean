import PirateShip.ForkReceiver
import PirateShip.Lib.Quorum
import PirateShip.Pacemaker
import PirateShip.Staging.ViewChange

/-! The thresholds that the stages compute from the configuration, each for itself, and
what quorums of that size have in common. -/

set_option autoImplicit false

namespace PirateShip

open Option

namespace Config

def nodes (config : Config) : Finset String := config.consensusConfig.nodeList.toFinset

def IsQcQuorum (config : Config) (names : Finset String) : Prop :=
  names ⊆ config.nodes ∧ ∃ thresh ∈ Staging.byzantineCommitThreshold config, thresh ≤ names.card

def IsViewChangeQuorum (config : Config) (names : Finset String) : Prop :=
  names ⊆ config.nodes ∧ Pacemaker.newViewBcastThreshold config ≤ names.card

/-- A quorum of votes has more names in common with every quorum than a third of the
nodes, which may be faulty. -/
def QuorumsIntersect (config : Config) : Prop :=
  ∀ quorum, config.IsQcQuorum quorum →
    (∀ other, config.IsQcQuorum other →
      config.consensusConfig.nodeList.length / 3 + 1 ≤ (quorum ∩ other).card) ∧
    ∀ other, config.IsViewChangeQuorum other →
      config.consensusConfig.nodeList.length / 3 + 1 ≤ (quorum ∩ other).card

variable {config : Config}

theorem card_nodes_le (config : Config) : config.nodes.card ≤ config.consensusConfig.nodeList.length :=
  List.toFinset_card_le _

theorem card_nodes_eq_iff (config : Config) :
    config.nodes.card = config.consensusConfig.nodeList.length ↔ config.consensusConfig.nodeList.Nodup :=
  Multiset.toFinset_card_eq_card_iff_nodup (m := (config.consensusConfig.nodeList : Multiset String))

/-!
## Without `platforms`
-/

theorem thresholds_of_basic (basic : config.features.platforms = false) : Staging.byzantineCommitThreshold config =
      some (config.consensusConfig.nodeList.length - config.consensusConfig.nodeList.length / 3) ∧
    Pacemaker.newViewBcastThreshold config =
      config.consensusConfig.nodeList.length - config.consensusConfig.nodeList.length / 3 ∧
    ForkReceiver.byzantineLivenessThreshold config =
      config.consensusConfig.nodeList.length - config.consensusConfig.nodeList.length / 3 := by
  simp [Staging.byzantineCommitThreshold, Staging.byzantineLivenessThreshold, Pacemaker.newViewBcastThreshold,
    ForkReceiver.byzantineLivenessThreshold, basic]

theorem quorumsIntersect_iff_forall (basic : config.features.platforms = false) : config.QuorumsIntersect ↔
      ∀ left ⊆ config.nodes,
        config.consensusConfig.nodeList.length - config.consensusConfig.nodeList.length / 3 ≤ left.card →
        ∀ right ⊆ config.nodes,
          config.consensusConfig.nodeList.length - config.consensusConfig.nodeList.length / 3 ≤ right.card →
          config.consensusConfig.nodeList.length / 3 + 1 ≤ (left ∩ right).card := by
  obtain ⟨votes, messages, -⟩ := thresholds_of_basic basic
  simp only [QuorumsIntersect, IsQcQuorum, IsViewChangeQuorum, votes, messages, mem_def, some.injEq, exists_eq_left']
  constructor
  · intro intersect left leftOf leftLarge right rightOf rightLarge
    exact (intersect left ⟨leftOf, leftLarge⟩).1 right ⟨rightOf, rightLarge⟩
  · intro share left isQuorum
    exact ⟨fun right other => share left isQuorum.1 isQuorum.2 right other.1 other.2,
      fun right other => share left isQuorum.1 isQuorum.2 right other.1 other.2⟩

/-- All but a third, rounded down, are too few when three divides the number of nodes:
then two quorums may have just a third in common. -/
theorem quorumsIntersect_iff (basic : config.features.platforms = false) :
    config.QuorumsIntersect ↔
      config.consensusConfig.nodeList.length % 3 ≠ 0 ∨ ¬config.consensusConfig.nodeList.Nodup := by
  have listed := config.card_nodes_le
  rw [quorumsIntersect_iff_forall basic, Finset.forall_le_card_inter_iff (Nat.succ_pos _), ← card_nodes_eq_iff]
  omega

def basicConfig (nodeList : List String) : Config where
  netConfig := { name := "node1" }
  consensusConfig := { nodeList, livenessU := 0 }
  features := { platforms := false }

theorem quorumsIntersect_four : (basicConfig ["node1", "node2", "node3", "node4"]).QuorumsIntersect :=
  (quorumsIntersect_iff rfl).mpr (.inl (by decide))

/-- Two votes are a certificate among three nodes, and the second node is the only one
that both certificates are from. -/
theorem not_quorumsIntersect_three :
    (basicConfig ["node1", "node2", "node3"]).IsQcQuorum {"node1", "node2"} ∧
    (basicConfig ["node1", "node2", "node3"]).IsQcQuorum {"node2", "node3"} ∧
    (({"node1", "node2"} : Finset String) ∩ {"node2", "node3"}).card <
      (basicConfig ["node1", "node2", "node3"]).consensusConfig.nodeList.length / 3 + 1 ∧
    ¬(basicConfig ["node1", "node2", "node3"]).QuorumsIntersect := by
  have first : (basicConfig ["node1", "node2", "node3"]).IsQcQuorum {"node1", "node2"} :=
    ⟨by decide, 2, rfl, by decide⟩
  have second : (basicConfig ["node1", "node2", "node3"]).IsQcQuorum {"node2", "node3"} :=
    ⟨by decide, 2, rfl, by decide⟩
  refine ⟨first, second, by decide, ?_⟩
  intro intersect
  exact absurd ((intersect _ first).1 _ second) (by decide)

/-!
## With `platforms`
-/

/-- The thresholds are the differences that they are meant to be, a certificate needs at
least a majority and meets every majority, and no view is entered without a message. -/
structure SoundThresholds (config : Config) : Prop where
  commit : ∃ thresh ∈ Staging.byzantineCommitThreshold config,
    (thresh : Int) = config.consensusConfig.nodeList.length - config.consensusConfig.livenessU
  minQcLen : (ForkReceiver.byzantineLivenessThreshold config : Int) =
    config.consensusConfig.nodeList.length - config.consensusConfig.livenessU
  newView : (Pacemaker.newViewBcastThreshold config : Int) =
    config.consensusConfig.nodeList.length - config.consensusConfig.livenessU
  viewUpdate : (Pacemaker.pacemakerViewUpdateThreshold config : Int) =
    config.consensusConfig.nodeList.length - 2 * config.consensusConfig.livenessU
  viewChangeBroadcast : ∃ thresh ∈ Staging.viewChangeBroadcastThreshold config,
    (thresh : Int) = config.consensusConfig.nodeList.length - config.consensusConfig.livenessU - 1
  blockBroadcast : config.features.noQc = false →
    (BlockBroadcaster.getByzantineBroadcastThreshold config : Int) =
      config.consensusConfig.nodeList.length - config.consensusConfig.livenessU - 1
  majority : ∀ thresh ∈ Staging.byzantineCommitThreshold config, Staging.crashCommitThreshold config ≤ thresh
  meets : ∀ quorum, config.IsQcQuorum quorum → ∀ majority ⊆ config.nodes,
    Staging.crashCommitThreshold config ≤ majority.card → (quorum ∩ majority).Nonempty
  positive : 1 ≤ Pacemaker.pacemakerViewUpdateThreshold config

end Config

def ConsensusConfig.validateOrDie (config : ConsensusConfig) : Bool :=
  let n := config.nodeList.length
  let majority := n / 2 + 1
  !decide (wrappingSub n majority < config.livenessU)

theorem wrappingSub_of_le {a b} (le : b ≤ a) (word : a < 2 ^ 64) : wrappingSub a b = a - b := by
  rw [wrappingSub, show a + 2 ^ 64 - b = a - b + 2 ^ 64 by omega, Nat.add_mod_right, Nat.mod_eq_of_lt (by omega)]

theorem ConsensusConfig.validateOrDie_iff {config : ConsensusConfig} (nonempty : config.nodeList ≠ [])
    (word : config.nodeList.length < 2 ^ 64) : config.validateOrDie = true ↔ config.Valid := by
  have positive : 0 < config.nodeList.length := List.length_pos_iff.mpr nonempty
  simp only [validateOrDie, Valid, ne_eq, nonempty, not_false_eq_true, true_and,
    wrappingSub_of_le (show config.nodeList.length / 2 + 1 ≤ config.nodeList.length by omega) word,
    Bool.not_eq_true', decide_eq_false_iff_not, Nat.not_lt]

inductive StorageConfig where
  | rocksDB
  | fileStorage
  deriving DecidableEq, Repr

/-- A configuration file: what the stages read, and what is read when they are made. -/
structure NodeConfig where
  config : Config
  channelDepth : Nat
  numCryptoWorkers : Nat
  logStorageConfig : StorageConfig

/-- `ConsensusNode::mew`: the configuration that all stages share, unless a constructor
panics. Nothing here asks for `validate_or_die`. -/
def ConsensusNode.mew (file : NodeConfig) : Option Config :=
  if file.channelDepth = 0 ∨ file.numCryptoWorkers = 0 then none
  else
    match file.logStorageConfig with
    | .fileStorage => none
    | .rocksDB =>
      -- Without view changes the batch proposer looks up the first leader.
      if !file.config.features.viewChange && file.config.consensusConfig.nodeList.isEmpty then none
      else some file.config

namespace Config

variable {config : Config}

theorem soundThresholds_of_valid (platforms : config.features.platforms = true)
    (wordNodes : config.consensusConfig.nodeList.length < 2 ^ 64) (valid : config.consensusConfig.Valid) :
    config.SoundThresholds := by
  obtain ⟨nonempty, _⟩ := valid
  have positive : 0 < config.consensusConfig.nodeList.length := List.length_pos_iff.mpr nonempty
  have twice : 2 * config.consensusConfig.livenessU < config.consensusConfig.nodeList.length := by omega
  have commit : Staging.byzantineCommitThreshold config =
      some (config.consensusConfig.nodeList.length - config.consensusConfig.livenessU) := by
    simp only [Staging.byzantineCommitThreshold, Staging.byzantineLivenessThreshold, platforms, if_true]
    exact if_pos (by omega)
  have single := wrappingSub_of_le (show config.consensusConfig.livenessU ≤ _ by omega) wordNodes
  have double := wrappingSub_of_le twice.le wordNodes
  have viewUpdate : Pacemaker.pacemakerViewUpdateThreshold config =
      config.consensusConfig.nodeList.length - 2 * config.consensusConfig.livenessU := by
    simp only [Pacemaker.pacemakerViewUpdateThreshold, platforms, if_true]
    rw [Nat.mod_eq_of_lt (twice.trans wordNodes), double]
  refine ⟨⟨_, commit, by omega⟩, ?_, ?_, ?_, ?_, ?_, ?_, ?_, ?_⟩
  · simp only [ForkReceiver.byzantineLivenessThreshold, platforms, if_true]
    omega
  · simp only [Pacemaker.newViewBcastThreshold, platforms, if_true]
    omega
  · omega
  · refine ⟨config.consensusConfig.nodeList.length - config.consensusConfig.livenessU - 1, ?_, by omega⟩
    rw [Staging.viewChangeBroadcastThreshold, ← Staging.byzantineCommitThreshold, commit, map_some,
      wrappingPred_of_pos (by omega), mem_some_iff]
  · intro certificates
    simp only [BlockBroadcaster.getByzantineBroadcastThreshold, certificates, platforms, Bool.false_eq_true, if_false,
      if_true]
    rw [if_neg (by omega)]
    omega
  · intro thresh known
    rw [commit, mem_some_iff] at known
    simp only [Staging.crashCommitThreshold]
    omega
  · rintro _ ⟨quorumOf, thresh, known, _⟩ _ majorityOf large
    rw [commit, mem_some_iff] at known
    simp only [Staging.crashCommitThreshold] at large
    have listed := config.card_nodes_le
    have shared := Finset.card_add_card_le_card_add_card_inter quorumOf majorityOf
    exact Finset.card_pos.mp (by omega)
  · omega

/-- Whatever the node is started with, the thresholds are sound just if `liveness_u`
leaves a majority. -/
theorem soundThresholds_iff (file : NodeConfig) : ∀ config ∈ ConsensusNode.mew file,
    config.features.platforms = true → config.consensusConfig.nodeList.length < 2 ^ 64 →
    (config.SoundThresholds ↔ config.consensusConfig.Valid) := by
  intro config _ platforms wordNodes
  refine ⟨?_, soundThresholds_of_valid platforms wordNodes⟩
  intro sound
  have exact := sound.viewUpdate
  have positive := sound.positive
  refine ⟨?_, by omega⟩
  intro empty
  rw [empty] at exact
  simp only [List.length_nil] at exact
  omega

def threeNodesFile (livenessU : Nat) : NodeConfig where
  config :=
    { netConfig := { name := "node1" }
      consensusConfig := { nodeList := ["node1", "node2", "node3"], livenessU } }
  channelDepth := 1
  numCryptoWorkers := 1
  logStorageConfig := .rocksDB

theorem soundThresholds_of_majority : (threeNodesFile 1).config.SoundThresholds :=
  (soundThresholds_iff (threeNodesFile 1) _ rfl rfl (by decide)).mpr (by decide)

/-- With `liveness_u` two of three, one vote is a certificate, and the number of messages
for a view wraps around. -/
theorem not_soundThresholds_of_two :
    ConsensusNode.mew (threeNodesFile 2) = some (threeNodesFile 2).config ∧
    Staging.byzantineCommitThreshold (threeNodesFile 2).config = some 1 ∧
    Staging.crashCommitThreshold (threeNodesFile 2).config = 2 ∧
    Pacemaker.pacemakerViewUpdateThreshold (threeNodesFile 2).config = 2 ^ 64 - 1 ∧
    ¬(threeNodesFile 2).config.SoundThresholds := by
  refine ⟨rfl, rfl, rfl, by decide, ?_⟩
  intro sound
  exact absurd (sound.majority 1 rfl) (by decide)

end Config

end PirateShip
