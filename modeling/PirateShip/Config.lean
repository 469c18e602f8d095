import Mathlib.Data.List.GetD
import PirateShip.Proto

/-! The part of the configuration that the consensus stages read, together
with the cargo features that select a protocol at build time. -/

set_option autoImplicit false

namespace PirateShip

inductive SignPolicy where
  | dynamicSign
  | neverSign
  | alwaysSign
  deriving DecidableEq, Repr

/-- Cargo features. `roundRobinLeader = false` stands for `fixed_leader`. -/
structure Features where
  viewChange : Bool := true
  fastPath : Bool := true
  platforms : Bool := true
  noQc : Bool := false
  extraQcCheck : Bool := false
  noPipeline : Bool := false
  roundRobinLeader : Bool := true
  signing : SignPolicy := .dynamicSign
  deriving DecidableEq, Repr

structure NetConfig where
  name : String
  deriving DecidableEq, Repr

structure ConsensusConfig where
  nodeList : List String
  learnerList : List String := []
  livenessU : Nat
  commitIndexGapSoft : Nat := 256
  commitIndexGapHard : Nat := 512
  signatureMaxDelayBlocks : Nat := 128
  maxBacklogBatchSize : Nat := 1
  deriving DecidableEq, Repr

structure Config where
  netConfig : NetConfig
  consensusConfig : ConsensusConfig
  features : Features := {}
  deriving DecidableEq, Repr

/-- Leader of a view. View 0 wraps, and a node with an empty `node_list`
stops at this lookup, which is where the default would be read. -/
def Config.getLeaderForView (config : Config) (view : Nat) : String :=
  let nodes := config.consensusConfig.nodeList
  if config.features.roundRobinLeader then
    nodes.getD (wrappingPred view % nodes.length) ""
  else
    nodes.getD 0 ""

/-- The condition that `validate_or_die` checks: `liveness_u` leaves a majority. -/
def ConsensusConfig.Valid (config : ConsensusConfig) : Prop :=
  config.nodeList ≠ [] ∧
    config.livenessU ≤ config.nodeList.length - (config.nodeList.length / 2 + 1)

instance (config : ConsensusConfig) : Decidable config.Valid := inferInstanceAs (Decidable (_ ∧ _))

theorem Config.getLeaderForView_mem (config : Config) (view : Nat) (nonempty : config.consensusConfig.nodeList ≠ []) :
    config.getLeaderForView view ∈ config.consensusConfig.nodeList := by
  have positive : 0 < config.consensusConfig.nodeList.length := List.length_pos_iff.mpr nonempty
  unfold Config.getLeaderForView
  split
  · rw [List.getD_eq_getElem _ _ (Nat.mod_lt _ positive)]
    exact List.getElem_mem _
  · rw [List.getD_eq_getElem _ _ positive]
    exact List.getElem_mem _

end PirateShip
