import Mathlib.Algebra.GroupWithZero.Nat
import Mathlib.Data.List.AList

/-! Messages and records exchanged between the stages of one node and between
nodes. Sequence numbers, views and configuration numbers are `u64` in the source
and natural numbers here, so sums are exact where the source wraps: the model is
of runs in which the successor of a view or number and the end of a fork stay in
64 bits. Subtraction is wrapping wherever the source subtracts. -/

set_option autoImplicit false

namespace PirateShip

abbrev Bytes := List UInt8

abbrev HashType := Bytes

/-- A `HashMap`: distinct keys, in the order in which it happens to iterate. -/
abbrev HashMap (α β : Type) := AList (fun _ : α => β)

def wrappingPred (n : Nat) : Nat := if n = 0 then 2 ^ 64 - 1 else n - 1

theorem wrappingPred_of_pos {n} (positive : 0 < n) : wrappingPred n = n - 1 := if_neg (Nat.ne_of_gt positive)

/-- `a - b` on 64-bit integers, as a release build computes it. -/
def wrappingSub (a b : Nat) : Nat := (a + 2 ^ 64 - b) % 2 ^ 64

/-!
## Transactions
-/

inductive ProtoTransactionOpType where
  | noop | read | write | increment | cas
  | addLearner | upgradeFullNode | delLearner | downgradeFullNode
  | custom | probe
  deriving DecidableEq, Repr

def ProtoTransactionOpType.fromI32 : Int → Option ProtoTransactionOpType
  | 0 => some .noop
  | 1 => some .read
  | 2 => some .write
  | 3 => some .increment
  | 4 => some .cas
  | 5 => some .addLearner
  | 6 => some .upgradeFullNode
  | 7 => some .delLearner
  | 8 => some .downgradeFullNode
  | 9 => some .custom
  | 10 => some .probe
  | _ => none

structure ProtoTransactionOp where
  opType : Int
  operands : List Bytes
  deriving DecidableEq, Repr

structure ProtoTransactionPhase where
  ops : List ProtoTransactionOp
  deriving DecidableEq, Repr

structure ProtoTransaction where
  onReceive : Option ProtoTransactionPhase := none
  onCrashCommit : Option ProtoTransactionPhase := none
  onByzantineCommit : Option ProtoTransactionPhase := none
  isReconfiguration : Bool := false
  is2pc : Bool := false
  deriving DecidableEq, Repr

structure ProtoTransactionOpResult where
  success : Bool
  values : List Bytes
  deriving DecidableEq, Repr

structure ProtoTransactionResult where
  result : List ProtoTransactionOpResult
  deriving DecidableEq, Repr

structure ProtoByzResponse where
  blockN : Nat
  txN : Nat
  clientTag : Nat
  deriving DecidableEq, Repr

/-!
## Blocks and consensus messages
-/

structure ProtoNameWithSignature where
  name : String
  sig : Bytes
  deriving DecidableEq, Repr

structure ProtoQuorumCertificate where
  digest : HashType
  n : Nat
  sig : List ProtoNameWithSignature
  view : Nat
  deriving DecidableEq, Repr

structure ProtoForkValidation where
  vcView : Nat
  vcConfigNum : Nat
  blockHashes : List HashType
  forkLastN : Nat
  forkLastQc : Option ProtoQuorumCertificate
  forkLastView : Nat
  forkLastConfigNum : Nat
  vcSig : Bytes
  sender : String
  deriving DecidableEq, Repr

inductive Sig where
  | noSig
  | proposerSig (sig : Bytes)
  deriving DecidableEq, Repr

structure ProtoBlock where
  txList : List ProtoTransaction := []
  n : Nat := 0
  parent : HashType := []
  view : Nat := 0
  qc : List ProtoQuorumCertificate := []
  forkValidation : List ProtoForkValidation := []
  viewIsStable : Bool := false
  configNum : Nat := 0
  sig : Option Sig := none
  deriving DecidableEq, Repr

/-- Only blocks with a proposer signature collect signatures from the voters. -/
def ProtoBlock.isSigned (block : ProtoBlock) : Bool :=
  match block.sig with
  | some (.proposerSig _) => true
  | _ => false

structure HalfSerializedBlock where
  n : Nat
  view : Nat
  viewIsStable : Bool
  configNum : Nat
  serializedBody : Bytes
  deriving DecidableEq, Repr

structure ProtoFork where
  serializedBlocks : List HalfSerializedBlock
  deriving DecidableEq, Repr

structure ProtoAppendEntries where
  fork : Option ProtoFork
  commitIndex : Nat
  view : Nat
  viewIsStable : Bool
  configNum : Nat
  isBackfillResponse : Bool
  deriving DecidableEq, Repr

structure ProtoSignatureArrayEntry where
  n : Nat
  sig : Bytes
  deriving DecidableEq, Repr

structure ProtoVote where
  sigArray : List ProtoSignatureArrayEntry
  forkDigest : HashType
  n : Nat
  view : Nat
  configNum : Nat
  deriving DecidableEq, Repr

structure ProtoViewChange where
  view : Nat
  configNum : Nat
  fork : Option ProtoFork
  forkLastQc : Option ProtoQuorumCertificate
  forkLastN : Nat
  forkSig : Bytes
  deriving DecidableEq, Repr

structure ProtoBlockHint where
  blockN : Nat
  digest : HashType
  deriving DecidableEq, Repr

inductive BackfillOrigin where
  | ae (ae : ProtoAppendEntries)
  | vc (vc : ProtoViewChange)
  deriving DecidableEq, Repr

structure ProtoBackfillNack where
  origin : Option BackfillOrigin
  hints : List ProtoBlockHint
  lastIndexNeeded : Nat
  replyName : String
  deriving DecidableEq, Repr

/-- The payloads that nodes exchange; client requests enter elsewhere. -/
inductive ProtoPayload where
  | viewChange (vc : ProtoViewChange)
  | appendEntries (ae : ProtoAppendEntries)
  | vote (vote : ProtoVote)
  | backfillNack (nack : ProtoBackfillNack)
  deriving DecidableEq, Repr

/-!
## Records that stay inside a node
-/

inductive SenderType where
  | anon
  | auth (name : String) (clientSubId : Nat)
  deriving DecidableEq, Repr

def SenderType.toNameAndSubId : SenderType → String × Nat
  | .anon => ("Anon", 0)
  | .auth name subId => (name, subId)

/-- A block with its serialization and its hash, never mutated once built. -/
structure CachedBlock where
  block : ProtoBlock
  blockSer : Bytes
  blockHash : HashType
  deriving DecidableEq, Repr

def CachedBlock.toHalfSerialized (block : CachedBlock) : HalfSerializedBlock where
  n := block.block.n
  view := block.block.view
  viewIsStable := block.block.viewIsStable
  configNum := block.block.configNum
  serializedBody := block.blockSer

structure AppendEntriesStats where
  view : Nat
  viewIsStable : Bool
  configNum : Nat
  sender : String
  ci : Nat
  deriving DecidableEq, Repr

abbrev StorageAck := Except String Unit

inductive AppCommand where
  | newRequestBatch (n view : Nat) (viewIsStable iAmLeader : Bool) (length : Nat)
      (lastHash : HashType)
  | crashCommit (blocks : List CachedBlock)
  | byzCommit (blocks : List CachedBlock)
  | rollback (newLastBlock : Nat)
  deriving DecidableEq, Repr

inductive LogServerCommand where
  | newBlock (block : CachedBlock)
  | rollback (n : Nat)
  | updateBCI (n : Nat)
  deriving DecidableEq, Repr

inductive BlockBroadcasterCommand where
  | updateCI (ci : Nat)
  | nextAEForkPrefix (blocks : List CachedBlock)
  deriving DecidableEq, Repr

inductive BlockSequencerControlCommand where
  | newUnstableView (view configNum : Nat)
  | viewStabilised (view configNum : Nat)
  | newViewMessage (view configNum : Nat) (forkValidation : List ProtoForkValidation)
      (newParentHash : HashType) (newSeqNum : Nat)
  deriving DecidableEq, Repr

inductive ForkReceiverCommand where
  | updateView (view configNum : Nat)
  | multipartNack (parts : Nat)
  | useBackfillResponse (ae : ProtoAppendEntries) (sender : SenderType)
  deriving DecidableEq, Repr

inductive PacemakerCommand where
  | updateView (view configNum : Nat)
  | myViewJumped (view configNum : Nat) (vc : ProtoViewChange)
  | newViewForks (view configNum : Nat) (forks : HashMap SenderType ProtoViewChange)
  | updateBCI (bci : Nat)
  | queryEnoughVCMsg (view configNum : Nat)

inductive ClientReplyCommand where
  | cancelAllRequests
  | stopCancelling
  | crashCommitAck (results : List (HashType × Nat × List ProtoTransactionResult))
  | byzCommitAck (results : List (HashType × Nat × List ProtoByzResponse))
  deriving DecidableEq, Repr

abbrev BatchProposerCommand := Bool × String

inductive TimerCommand where
  | reset
  | fireNow
  deriving DecidableEq, Repr

end PirateShip
