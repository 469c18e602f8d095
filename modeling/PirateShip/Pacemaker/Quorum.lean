import Mathlib.Data.Finset.Card
import PirateShip.Crypto.Accepted
import PirateShip.Lib.Run
import PirateShip.Pacemaker
import PirateShip.Rpc.Server

/-! The pacemaker counts senders, which are pairs of a name and a sub id. These
are as many nodes if every message is from a member of `node_list` and its node
has not sent one over another connection. -/

set_option autoImplicit false

namespace PirateShip.Pacemaker

open List StepSystem Option

variable (config : Config) (store : BlockStore)
variable {sender : SenderType} {vc : ProtoViewChange} {more : List (SenderType × ProtoViewChange)}
  {pacemaker : Pacemaker} {server server' : LogServer}

/-!
## Runs of the pacemaker
-/

/-- What the worker takes from its channels, with the log server as it is then. -/
inductive Event where
  | viewChange (server : LogServer) (vc : ProtoViewChange) (sender : SenderType)
  | staging (server : LogServer) (command : PacemakerCommand)

structure Observed where
  pacemaker : Pacemaker := {}
  received : List (SenderType × ProtoViewChange) := []

def Event.message : Event → Option (SenderType × ProtoViewChange)
  | .viewChange _ vc sender => some (sender, vc)
  | .staging _ (.myViewJumped _ _ vc) => some (.auth config.netConfig.name 0, vc)
  | .staging _ _ => none

def step (observed : Observed) (event : Event) : Option Observed :=
  let received := observed.received ++ (event.message config).toList
  match event with
  | .viewChange server vc sender =>
    (observed.pacemaker.handleViewChange config store server vc sender).map fun after => ⟨after.1, received⟩
  | .staging server command =>
    (observed.pacemaker.handleStagingCommand config store server command).map fun after => ⟨after.1, received⟩

/-!
## What the staging stage is told
-/

def newView? : PacemakerCommand → Option Nat
  | .newViewForks view _ _ => some view
  | _ => none

structure NodesCounted (observed : Observed) : Prop where
  newViews : ∀ view configNum forks, .newViewForks view configNum forks ∈ observed.pacemaker.stagingTx →
    (∀ sender vc, forks.lookup sender = some vc → vc.view = view ∧ vc.configNum = configNum) ∧
    ∃ names : Finset String, newViewBcastThreshold config ≤ names.card ∧
      ∀ name ∈ names, name ∈ config.consensusConfig.nodeList ∧
        ∃ subId vc, forks.lookup (.auth name subId) = some vc
  updates : ∀ view configNum, .updateView view configNum ∈ observed.pacemaker.stagingTx →
    ∃ names : Finset String, pacemakerViewUpdateThreshold config ≤ names.card ∧
      ∀ name ∈ names, name ∈ config.consensusConfig.nodeList ∧
        ∃ subId vc, (.auth name subId, vc) ∈ observed.received ∧ vc.view = view ∧ vc.configNum = configNum
  increasing : (observed.pacemaker.stagingTx.filterMap newView?).Pairwise (· < ·)

/-- The message is from a member, which has no message from another connection
in the buffer for this view and configuration. -/
def Distinct (pacemaker : Pacemaker) (message : SenderType × ProtoViewChange) : Prop :=
  match message.1 with
  | .anon => False
  | .auth name subId => name ∈ config.consensusConfig.nodeList ∧
    ∀ other ∈ (pacemaker.vcBuffer (message.2.view, message.2.configNum)).keys,
      other.toNameAndSubId.1 = name → other = .auth name subId

instance (pacemaker : Pacemaker) : ∀ message, Decidable (Distinct config pacemaker message)
  | (.anon, _) => inferInstanceAs (Decidable False)
  | (.auth _ _, _) => inferInstanceAs (Decidable (_ ∧ _))

def DistinctSenders (observed : Observed) (event : Event) : Prop :=
  ∀ message ∈ event.message config, Distinct config observed.pacemaker message

instance (observed : Observed) (event : Event) : Decidable (DistinctSenders config observed event) :=
  inferInstanceAs (Decidable (∀ message ∈ event.message config, _))

/-!
## The buffer
-/

variable {config store} {observed after : Observed} {event : Event}
  {bucket : HashMap SenderType ProtoViewChange} {key : Nat × Nat}

structure BucketOk (config : Config) (received : List (SenderType × ProtoViewChange)) (key : Nat × Nat)
    (bucket : HashMap SenderType ProtoViewChange) : Prop where
  members : ∀ sender ∈ bucket.keys, ∃ name subId, sender = .auth name subId ∧
    name ∈ config.consensusConfig.nodeList
  distinct : ∀ sender ∈ bucket.keys, ∀ other ∈ bucket.keys,
    sender.toNameAndSubId.1 = other.toNameAndSubId.1 → sender = other
  labelled : ∀ sender vc, bucket.lookup sender = some vc → (vc.view, vc.configNum) = key
  received : ∀ sender vc, bucket.lookup sender = some vc → (sender, vc) ∈ received

theorem bucketOk_empty (received) (key : Nat × Nat) : BucketOk config received key ∅ where
  members sender member := by simp at member
  distinct sender member := by simp at member
  labelled sender vc found := by simp at found
  received sender vc found := by simp at found

theorem mem_keys_insert {other} : other ∈ (bucket.insert sender vc).keys ↔ other = sender ∨ other ∈ bucket.keys := by
  rw [← AList.mem_keys, AList.mem_insert, AList.mem_keys]

theorem BucketOk.mono {received} (ok : BucketOk config received key bucket)
    (grown : received ⊆ more) : BucketOk config more key bucket :=
  { ok with received := fun sender vc found => grown (ok.received sender vc found) }

theorem BucketOk.insert {received}
    (ok : BucketOk config received (vc.view, vc.configNum) (pacemaker.vcBuffer (vc.view, vc.configNum)))
    (distinct : Distinct config pacemaker (sender, vc)) (isReceived : (sender, vc) ∈ received) :
    BucketOk config received (vc.view, vc.configNum)
      ((pacemaker.vcBuffer (vc.view, vc.configNum)).insert sender vc) := by
  cases sender with
  | anon => exact distinct.elim
  | auth name subId =>
    obtain ⟨isMember, alone⟩ := distinct
    constructor
    · intro other member
      rcases mem_keys_insert.mp member with rfl | member
      · exact ⟨name, subId, rfl, isMember⟩
      · exact ok.members other member
    · intro first firstMember second secondMember same
      rcases mem_keys_insert.mp firstMember with rfl | firstMember <;>
        rcases mem_keys_insert.mp secondMember with rfl | secondMember
      · rfl
      · exact (alone second secondMember same.symm).symm
      · exact alone first firstMember same
      · exact ok.distinct first firstMember second secondMember same
    · intro other found lookup
      by_cases same : other = .auth name subId
      · rw [same, AList.lookup_insert] at lookup
        cases lookup
        rfl
      · rw [AList.lookup_insert_ne same] at lookup
        exact ok.labelled other found lookup
    · intro other found lookup
      by_cases same : other = .auth name subId
      · rw [same, AList.lookup_insert] at lookup
        cases lookup
        exact same ▸ isReceived
      · rw [AList.lookup_insert_ne same] at lookup
        exact ok.received other found lookup

theorem BucketOk.quorum {received threshold} (ok : BucketOk config received key bucket)
    (enough : threshold ≤ bucket.keys.length) :
    ∃ names : Finset String, threshold ≤ names.card ∧ ∀ name ∈ names,
      name ∈ config.consensusConfig.nodeList ∧ ∃ subId vc, bucket.lookup (.auth name subId) = some vc := by
  refine ⟨(bucket.keys.map (·.toNameAndSubId.1)).toFinset, ?_, ?_⟩
  · rw [toFinset_card_of_nodup, length_map]
    · exact enough
    · exact bucket.keys_nodup.map_on ok.distinct
  · intro name member
    obtain ⟨sender, isKey, rfl⟩ := mem_map.mp (mem_toFinset.mp member)
    obtain ⟨name, subId, rfl, isMember⟩ := ok.members sender isKey
    obtain ⟨vc, found⟩ := isSome_iff_exists.mp (AList.lookup_isSome.mpr isKey)
    exact ⟨isMember, subId, vc, found⟩

/-!
## Handling a message
-/

def notified (config : Config) (pacemaker : Pacemaker) (sender : SenderType) (vc : ProtoViewChange) :
    List PacemakerCommand :=
  let buffered := (pacemaker.vcBuffer (vc.view, vc.configNum)).insert sender vc
  (if pacemakerViewUpdateThreshold config ≤ buffered.keys.length ∧ pacemaker.lastViewNotified < vc.view then
    [.updateView vc.view vc.configNum] else []) ++
  if newViewBcastThreshold config ≤ buffered.keys.length ∧ pacemaker.lastNewViewedView < vc.view then
    [.newViewForks vc.view vc.configNum buffered] else []

theorem stagingTx_bufferVc (pacemaker sender vc) :
    (pacemaker.bufferVc config sender vc).stagingTx = pacemaker.stagingTx ++ notified config pacemaker sender vc := by
  simp only [bufferVc, notified]
  split <;> split <;> simp_all

theorem mem_notified {command} (sent : command ∈ notified config pacemaker sender vc) :
    let buffered := (pacemaker.vcBuffer (vc.view, vc.configNum)).insert sender vc
    command = .updateView vc.view vc.configNum ∧ pacemakerViewUpdateThreshold config ≤ buffered.keys.length ∨
    command = .newViewForks vc.view vc.configNum buffered ∧ newViewBcastThreshold config ≤ buffered.keys.length := by
  rcases mem_append.mp sent with sent | sent
  · split at sent
    · next enough => exact .inl ⟨mem_singleton.mp sent, enough.1⟩
    · cases sent
  · split at sent
    · next enough => exact .inr ⟨mem_singleton.mp sent, enough.1⟩
    · cases sent

theorem vcBuffer_bufferVc (config : Config) (pacemaker : Pacemaker) (sender : SenderType)
    (vc : ProtoViewChange) (key : Nat × Nat) :
    (pacemaker.bufferVc config sender vc).vcBuffer key = pacemaker.vcBuffer key ∨
    (pacemaker.bufferVc config sender vc).vcBuffer key = ∅ ∨
    key = (vc.view, vc.configNum) ∧ (pacemaker.bufferVc config sender vc).vcBuffer key =
      (pacemaker.vcBuffer (vc.view, vc.configNum)).insert sender vc := by
  simp only [bufferVc]
  split <;> split <;> by_cases same : key = (vc.view, vc.configNum) <;> simp [same]

theorem lastNewViewedView_bufferVc (config pacemaker sender vc) :
    (pacemaker.bufferVc config sender vc).lastNewViewedView = pacemaker.lastNewViewedView ∧
      (notified config pacemaker sender vc).filterMap newView? = [] ∨
    pacemaker.lastNewViewedView < vc.view ∧ (pacemaker.bufferVc config sender vc).lastNewViewedView = vc.view ∧
      (notified config pacemaker sender vc).filterMap newView? = [vc.view] := by
  simp only [bufferVc, notified]
  split <;> split <;> simp_all [newView?, filterMap_cons]

structure Pruned (before after : Pacemaker) : Prop where
  stagingTx : after.stagingTx = before.stagingTx
  lastNewViewedView : after.lastNewViewedView = before.lastNewViewedView
  vcBuffer : ∀ key, after.vcBuffer key = before.vcBuffer key ∨ after.vcBuffer key = ∅

theorem Pruned.refl (pacemaker) : Pruned pacemaker pacemaker := ⟨rfl, rfl, fun _ => .inl rfl⟩

theorem handleViewChange_cases {next}
    (ran : pacemaker.handleViewChange config store server vc sender = some (next, server')) :
    Pruned pacemaker next ∨ next = pacemaker.bufferVc config sender vc := by
  unfold handleViewChange at ran
  split at ran
  · cases ran
    exact .inl (.refl _)
  · split at ran
    · cases ran
      exact .inl (.refl _)
    · split at ran
      · cases ran
      · split at ran
        · cases ran
        · cases ran
          exact .inr rfl
        · split at ran
          · cases ran
            exact .inl (.refl _)
          · obtain ⟨_, -, same⟩ := map_eq_some_iff.mp ran
            cases same
            exact .inl ⟨rfl, rfl, fun _ => .inl rfl⟩

/-!
## Nodes are counted
-/

structure QuorumInv (config : Config) (observed : Observed) : Prop where
  buckets : ∀ key, BucketOk config observed.received key (observed.pacemaker.vcBuffer key)
  counted : NodesCounted config observed
  bounded : ∀ view ∈ observed.pacemaker.stagingTx.filterMap newView?,
    view ≤ observed.pacemaker.lastNewViewedView

theorem QuorumInv.prune {next} (inv : QuorumInv config observed) (grown : observed.received ⊆ more)
    (pruned : Pruned observed.pacemaker next) : QuorumInv config ⟨next, more⟩ where
  buckets key := by
    rcases pruned.vcBuffer key with same | empty
    · exact same ▸ (inv.buckets key).mono grown
    · exact empty ▸ bucketOk_empty more key
  counted := by
    constructor
    · rw [pruned.stagingTx]
      exact inv.counted.newViews
    · rw [pruned.stagingTx]
      intro view configNum sent
      obtain ⟨names, enough, backed⟩ := inv.counted.updates view configNum sent
      refine ⟨names, enough, fun name member => ?_⟩
      obtain ⟨isMember, subId, vc, isReceived, label⟩ := backed name member
      exact ⟨isMember, subId, vc, grown isReceived, label⟩
    · rw [pruned.stagingTx]
      exact inv.counted.increasing
  bounded := by
    rw [pruned.stagingTx, pruned.lastNewViewedView]
    exact inv.bounded

theorem QuorumInv.buffer (inv : QuorumInv config observed) (isReceived : (sender, vc) ∈ observed.received)
    (distinct : Distinct config observed.pacemaker (sender, vc)) :
    QuorumInv config ⟨observed.pacemaker.bufferVc config sender vc, observed.received⟩ := by
  have bucket := (inv.buckets (vc.view, vc.configNum)).insert distinct isReceived
  constructor
  · intro key
    rcases vcBuffer_bufferVc config observed.pacemaker sender vc key with
      same | empty | ⟨rfl, inserted⟩
    · exact same ▸ inv.buckets key
    · exact empty ▸ bucketOk_empty observed.received key
    · exact inserted ▸ bucket
  · constructor
    · intro view configNum forks sent
      rw [stagingTx_bufferVc, mem_append] at sent
      rcases sent with sent | sent
      · exact inv.counted.newViews view configNum forks sent
      · rcases mem_notified sent with ⟨isUpdate, -⟩ | ⟨isNewView, enough⟩
        · cases isUpdate
        · cases isNewView
          refine ⟨fun other found lookup => ?_, bucket.quorum enough⟩
          simpa using bucket.labelled other found lookup
    · intro view configNum sent
      rw [stagingTx_bufferVc, mem_append] at sent
      rcases sent with sent | sent
      · exact inv.counted.updates view configNum sent
      · rcases mem_notified sent with ⟨isUpdate, enough⟩ | ⟨isNewView, -⟩
        · cases isUpdate
          obtain ⟨names, many, held⟩ := bucket.quorum enough
          refine ⟨names, many, fun name member => ?_⟩
          obtain ⟨isMember, subId, found, lookup⟩ := held name member
          have label := bucket.labelled _ found lookup
          simp only [Prod.mk.injEq] at label
          exact ⟨isMember, subId, found, bucket.received _ found lookup, label⟩
        · cases isNewView
    · rw [stagingTx_bufferVc, filterMap_append]
      rcases lastNewViewedView_bufferVc config observed.pacemaker sender vc with
        ⟨-, nothing⟩ | ⟨higher, -, newView⟩
      · rw [nothing, append_nil]
        exact inv.counted.increasing
      · rw [newView, pairwise_append]
        refine ⟨inv.counted.increasing, pairwise_singleton _ _, fun view sent other isOther => ?_⟩
        rw [mem_singleton.mp isOther]
        exact (inv.bounded view sent).trans_lt higher
  · intro view sent
    rw [stagingTx_bufferVc, filterMap_append, mem_append] at sent
    rcases lastNewViewedView_bufferVc config observed.pacemaker sender vc with
      ⟨same, nothing⟩ | ⟨higher, last, newView⟩
    · rw [nothing] at sent
      rw [same]
      exact inv.bounded view (sent.resolve_right not_mem_nil)
    · rw [newView, mem_singleton] at sent
      rw [last]
      rcases sent with sent | rfl
      · exact (inv.bounded view sent).trans higher.le
      · exact Nat.le_refl _

theorem Distinct.prune {next message} (distinct : Distinct config pacemaker message)
    (pruned : Pruned pacemaker next) :
    Distinct config next message := by
  obtain ⟨sender, vc⟩ := message
  cases sender with
  | anon => exact distinct
  | auth name subId =>
    refine ⟨distinct.1, fun other isKey => ?_⟩
    rcases pruned.vcBuffer (vc.view, vc.configNum) with same | empty
    · exact distinct.2 other (same ▸ isKey)
    · simp only [empty] at isKey
      cases isKey

theorem QuorumInv.handle {next received} (inv : QuorumInv config ⟨pacemaker, received⟩)
    (distinct : Distinct config pacemaker (sender, vc))
    (ran : pacemaker.handleViewChange config store server vc sender = some (next, server')) :
    QuorumInv config ⟨next, received ++ [(sender, vc)]⟩ := by
  have grown : received ⊆ received ++ [(sender, vc)] := subset_append_left _ _
  rcases handleViewChange_cases ran with pruned | rfl
  · exact inv.prune grown pruned
  · exact (inv.prune grown (.refl _)).buffer (mem_append_right _ mem_cons_self) distinct

theorem QuorumInv.step (inv : QuorumInv config observed) (ok : DistinctSenders config observed event)
    (taken : step config store observed event = some after) : QuorumInv config after := by
  cases event with
  | viewChange server vc sender =>
    obtain ⟨⟨next, server'⟩, ran, rfl⟩ := map_eq_some_iff.mp taken
    exact inv.handle (ok _ rfl) ran
  | staging server command =>
    obtain ⟨⟨next, server'⟩, ran, rfl⟩ := map_eq_some_iff.mp taken
    cases command with
    | myViewJumped viewNum configNum vc =>
      have pruned : Pruned observed.pacemaker { observed.pacemaker with
          vcBuffer := fun key =>
            if viewNum ≤ key.1 ∧ configNum ≤ key.2 then observed.pacemaker.vcBuffer key else ∅ } := by
        refine ⟨rfl, rfl, fun key => ?_⟩
        dsimp only
        split
        · exact .inl rfl
        · exact .inr rfl
      exact (inv.prune (List.Subset.refl _) pruned).handle ((ok _ rfl).prune pruned) ran
    | updateBCI bci =>
      cases ran
      exact inv.prune (subset_append_left _ _) ⟨rfl, rfl, fun _ => .inl rfl⟩
    | queryEnoughVCMsg | updateView | newViewForks =>
      cases ran
      exact inv.prune (subset_append_left _ _) (.refl _)

theorem quorumInv_new (config) : QuorumInv config {} where
  buckets key := bucketOk_empty [] key
  counted := ⟨nofun, nofun, .nil⟩
  bounded := nofun

/-- In every run whose messages are all from distinct members, the thresholds
count nodes, and the views of the new-view commands go up. -/
theorem nodesCounted_of_reaches (reached : Reaches (step config store) (DistinctSenders config) {} observed) :
    NodesCounted config observed := by
  apply QuorumInv.counted
  apply reached.invariant (quorumInv_new config)
  intro before after event inv ok taken
  exact inv.step ok taken

/-!
## One node with two connections
-/

def threeMembers : Config where
  netConfig := { name := "node2" }
  consensusConfig := { nodeList := ["node1", "node2", "node3"], livenessU := 1 }

def emptyFork : ProtoViewChange where
  view := 1
  configNum := 1
  fork := none
  forkLastQc := none
  forkLastN := 0
  forkSig := []

def messageFrom (sender : SenderType) : Event := .viewChange {} emptyFork sender

def twoConnections : HashMap SenderType ProtoViewChange :=
  ((∅ : HashMap SenderType ProtoViewChange).insert (.auth "node1" 0) emptyFork).insert (.auth "node1" 1) emptyFork

theorem one_node_is_quorum :
    ∃ observed, Reaches (step threeMembers fun _ => none)
        (fun _ event => ∀ message ∈ event.message threeMembers,
          Authenticated tinyPrimitives tinyKeys message.1) {} observed ∧
      ¬ NodesCounted threeMembers observed := by
  have authenticated (subId : Nat) : Authenticated tinyPrimitives tinyKeys (.auth "node1" subId) :=
    authenticated_of_sign (rfl : tinyKeys.getPubkey "node1" = some [1]) [1] 0 (by decide +kernel)
      (by decide +kernel) subId
  obtain ⟨observed, ran, sent⟩ : ∃ observed, runAll (step threeMembers fun _ => none) {}
      [messageFrom (.auth "node1" 0), messageFrom (.auth "node1" 1)] = some observed ∧
      .newViewForks 1 1 twoConnections ∈ observed.pacemaker.stagingTx :=
    ⟨_, rfl, mem_of_getLast? rfl⟩
  refine ⟨observed, reaches_of_runAll ran ?_, fun counted => ?_⟩
  · refine ⟨?_, fun _ _ => ⟨?_, fun _ _ => trivial⟩⟩
    · rintro message ⟨⟩
      exact authenticated 0
    · rintro message ⟨⟩
      exact authenticated 1
  · obtain ⟨-, names, enough, held⟩ := counted.newViews 1 1 twoConnections sent
    have only : names ⊆ {"node1"} := by
      intro name member
      obtain ⟨-, subId, _, found⟩ := held name member
      have isKey := AList.mem_keys.mp (AList.lookup_isSome.mp (isSome_of_eq_some found))
      have keys : twoConnections.keys = [.auth "node1" 1, .auth "node1" 0] := rfl
      rw [keys] at isKey
      simp only [mem_cons, not_mem_nil, or_false] at isKey
      rcases isKey with ⟨rfl, -⟩ | ⟨rfl, -⟩ <;> simp
    have few := Finset.card_le_card only
    exact absurd (enough.trans few) (by decide)

theorem nodesCounted_of_two_nodes :
    ∃ observed, Reaches (step threeMembers fun _ => none) (DistinctSenders threeMembers) {} observed ∧
      (∃ forks, .newViewForks 1 1 forks ∈ observed.pacemaker.stagingTx) ∧
      NodesCounted threeMembers observed := by
  obtain ⟨observed, ran, sent⟩ : ∃ observed, runAll (step threeMembers fun _ => none) {}
      [messageFrom (.auth "node1" 0), messageFrom (.auth "node3" 1)] = some observed ∧
      ∃ forks, .newViewForks 1 1 forks ∈ observed.pacemaker.stagingTx :=
    ⟨_, rfl, _, mem_of_getLast? rfl⟩
  have reached : Reaches (step threeMembers fun _ => none) (DistinctSenders threeMembers) {} observed :=
    reaches_of_runAll ran (by decide +kernel)
  exact ⟨observed, reached, sent, nodesCounted_of_reaches reached⟩

end PirateShip.Pacemaker
