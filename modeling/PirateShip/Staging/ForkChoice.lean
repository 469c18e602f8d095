import PirateShip.Lib.HashMap
import PirateShip.Staging.State

/-! Statistics of the forks in view-change messages and the filters that
choose among them. `none` is a panic: a missing fork, a body too short to hold
a parent hash, or an index past the hashes of a fork. -/

set_option autoImplicit false

namespace PirateShip

structure ForkStat where
  blockHashes : List HashType
  forkLastN : Nat
  firstN : Nat
  firstParent : HashType
  lastQc : Option ProtoQuorumCertificate
  lastView : Nat
  lastConfigNum : Nat
  deriving DecidableEq, Repr

namespace Staging

/-- `max().unwrap_or(0)` of an iterator. -/
def maxOrZero (values : List Nat) : Nat := values.max?.getD 0

/-- One entry of `vc_to_stats`: hashes are read off the parent fields, only the
last one is computed. -/
def vcToStat (primitives : Primitives) (vc : ProtoViewChange) : Option ForkStat :=
  match vc.fork with
  | none => none
  | some fork =>
    let blocks := fork.serializedBlocks
    let blockHashes : Option (List HashType) := match blocks.getLast? with
      | none => some []
      | some last =>
        match hashProtoBlockSer primitives last.serializedBody with
        | none => none
        | some lastHash =>
          ((blocks.drop 1).mapM fun block =>
            getParentHashInProtoBlockSer block.serializedBody).map (· ++ [lastHash])
    blockHashes.map fun hashes =>
      { blockHashes := hashes
        forkLastN := (blocks.getLast?.map (·.n)).getD 0
        firstN := (blocks.head?.map (·.n)).getD 0
        firstParent := match blocks.head? with
          | none => defaultHash
          | some first => (getParentHashInProtoBlockSer first.serializedBody).getD defaultHash
        lastQc := vc.forkLastQc
        lastView := (blocks.getLast?.map (·.view)).getD 0
        lastConfigNum := (blocks.getLast?.map (·.configNum)).getD 0 }

/-- `vc_to_stats`. The result is the map's list of bindings. -/
def vcToStats (primitives : Primitives) (forks : HashMap SenderType ProtoViewChange) :
    Option (List (SenderType × ForkStat)) :=
  forks.toPairs.mapM fun binding =>
    (vcToStat primitives binding.2).map fun stat => (binding.1, stat)

/-- Rule 1: the highest view among the last certificates. -/
def forkChoiceFilterHighestQcView (forkStats : List (SenderType × ForkStat)) :
    List (SenderType × ForkStat) :=
  let highestQcView := maxOrZero (forkStats.map fun binding =>
    (binding.2.lastQc.map (·.view)).getD 0)
  forkStats.filter fun binding =>
    highestQcView == 0 || (binding.2.lastQc.map fun qc => qc.view == highestQcView).getD false

/-- What `other_stat` holds at position `blockN`: the inner `none` skips a fork
that starts above the position or whose last block is not above it. -/
def hashInFork (blockN : Nat) (stat : ForkStat) : Option (Option HashType) :=
  if blockN < stat.firstN then some none
  else if stat.forkLastN ≤ blockN then some none
  else (stat.blockHashes[blockN - stat.firstN]?).map some

/-- The hashes that all forks hold at a position. -/
def hashesAt (forkStats : List (SenderType × ForkStat)) (blockN : Nat) :
    Option (List HashType) :=
  (forkStats.mapM fun binding => hashInFork blockN binding.2).map fun found => found.filterMap id

/-- Enough support, and no other hash at the position with as much. -/
def couldHaveGoneFastPath (hashes : List HashType) (myBlockHash : HashType) (threshold : Nat) : Bool :=
  let antiSupport := maxOrZero ((hashes.filter (· != myBlockHash)).map fun hash => hashes.count hash)
  decide (threshold ≤ hashes.count myBlockHash) && decide (antiSupport < threshold)

/-- The two inner loops for one fork: the last position that could have been
committed on the fast path. The positions are those of the source up to
`first_n + block_hashes.len() = 2 ^ 64`. -/
def lastFastPathPosition (forkStats : List (SenderType × ForkStat)) (threshold : Nat) (firstN : Nat) :
    List HashType → Option Nat → Option (Option Nat)
  | [], found => some found
  | myBlockHash :: rest, found =>
    match hashesAt forkStats firstN with
    | none => none
    | some hashes =>
      lastFastPathPosition forkStats threshold (firstN + 1) rest
        (if couldHaveGoneFastPath hashes myBlockHash threshold then some firstN else found)

def forkChoiceFilterFastPath (forkStats : List (SenderType × ForkStat)) (threshold : Nat) :
    Option (List (SenderType × ForkStat)) :=
  let highestQcN := maxOrZero (forkStats.map fun binding => (binding.2.lastQc.map (·.n)).getD 0)
  let matching := forkStats.filter fun binding =>
    (binding.2.lastQc.map fun qc => qc.n == highestQcN).getD false
  -- Nobody could have gone fast path.
  if matching.length < threshold then some forkStats
  else
    (forkStats.mapM fun binding =>
      lastFastPathPosition forkStats threshold binding.2.firstN binding.2.blockHashes none).map
      fun positions =>
        let maxIndex := maxOrZero (positions.filterMap id)
        ((forkStats.zip positions).filter fun pair =>
          (pair.2.map fun position => decide (maxIndex ≤ position)).getD false).map (·.1)

def forkChoiceFilterHighestView (forkStats : List (SenderType × ForkStat)) :
    List (SenderType × ForkStat) :=
  let highestView := maxOrZero (forkStats.map fun binding => binding.2.lastView)
  forkStats.filter fun binding => binding.2.lastView == highestView

def forkChoiceFilterHighestLen (forkStats : List (SenderType × ForkStat)) :
    List (SenderType × ForkStat) :=
  let highestLen := maxOrZero (forkStats.map fun binding => binding.2.forkLastN)
  forkStats.filter fun binding => binding.2.forkLastN == highestLen

def forkChoiceFilter (features : Features) (forkStats : List (SenderType × ForkStat))
    (fastPathThreshold : Nat) : Option (List SenderType) :=
  let byQc := forkChoiceFilterHighestQcView forkStats
  let byFastPath :=
    if features.fastPath then forkChoiceFilterFastPath byQc fastPathThreshold else some byQc
  byFastPath.map fun stats =>
    (forkChoiceFilterHighestLen (forkChoiceFilterHighestView stats)).map (·.1)

def fastPathSelectionThreshold (config : Config) : Nat := config.consensusConfig.livenessU + 1

end Staging

end PirateShip
