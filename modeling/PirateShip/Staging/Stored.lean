import PirateShip.Staging.ChainInvariant
import PirateShip.Staging.Operations

/-! A vote says that blocks are stored. The stage awaits the acknowledgements of
storage before it votes, and drops their results: the vote is right as long as
none of the awaited results is an error. -/

set_option autoImplicit false

namespace PirateShip.Staging

open List StepSystem

variable (crypto : CryptoService) {staging entered after : Staging}

/-!
## Votes of the node
-/

def vote? : String × ProtoPayload → Option ProtoVote
  | (_, .vote vote) => some vote
  | _ => none

def clientVotes (staging : Staging) : List ProtoVote := staging.client.filterMap vote?

/-- The stage, the blocks that came to it with the acknowledgement of storage,
and its own votes with what was pending then. -/
structure Watched where
  staging : Staging
  delivered : List (CachedBlock × StorageAck) := []
  votes : List (ProtoVote × List CachedBlock) := []

def deliveryOf : Event → List (CachedBlock × StorageAck)
  | .block block storageAck _ _ => [(block, storageAck)]
  | _ => []

/-- The votes that are sent to the leader or counted between two states. -/
def newVotes (before after : Staging) : List (ProtoVote × List CachedBlock) :=
  (after.clientVotes.drop before.clientVotes.length).map (·, after.blocks) ++
    (after.countedVotes.drop before.countedVotes.length).map fun counted => (counted.vote, counted.pending)

/-- Only a block makes the node vote; other votes that are counted are those of
other nodes. -/
def ownVotes (before after : Staging) : Event → List (ProtoVote × List CachedBlock)
  | .block .. => newVotes before after
  | _ => []

def watch (watched : Watched) (event : Event) : Option Watched :=
  (step crypto watched.staging event).map fun after =>
    { staging := after
      delivered := watched.delivered ++ deliveryOf event
      votes := watched.votes ++ ownVotes watched.staging after event }

def VotedIsStored (watched : Watched) : Prop :=
  ∀ vote ∈ watched.votes, ∀ block ∈ vote.2, block.block.n ≤ vote.1.n → (block, .ok ()) ∈ watched.delivered

instance (watched : Watched) : Decidable (VotedIsStored watched) :=
  inferInstanceAs (Decidable (∀ vote ∈ watched.votes, ∀ block ∈ vote.2, _ → _))

/-- None of the results that a final block makes the stage await is an error. -/
def AwaitedOk (watched : Watched) : Event → Prop
  | .block _ storageAck _ true =>
    storageAck = .ok () ∧ ∀ buffered ∈ watched.staging.storageAckBuffer, buffered = .ok ()
  | _ => True

instance (watched : Watched) : ∀ event, Decidable (AwaitedOk watched event)
  | .block _ _ _ true => inferInstanceAs (Decidable (_ ∧ _))
  | .block _ _ _ false | .timerTick _ | .vote .. | .pacemaker _ => inferInstanceAs (Decidable True)

/-!
## Operations that drop blocks
-/

variable {crypto}

structure Drops (staging after : Staging) : Prop where
  blocks : after.blocks ⊆ staging.blocks
  acks : after.storageAckBuffer = staging.storageAckBuffer
  sent : after.clientVotes = staging.clientVotes
  counted : after.countedVotes = staging.countedVotes

theorem Drops.refl (staging) : Drops staging staging := ⟨List.Subset.refl _, rfl, rfl, rfl⟩

theorem Drops.trans {middle} (first : Drops staging middle) (second : Drops middle after) : Drops staging after where
  blocks _ member := first.blocks (second.blocks member)
  acks := second.acks.trans first.acks
  sent := second.sent.trans first.sent
  counted := second.counted.trans first.counted

theorem drops_respected : Respects Drops where
  refl := .refl
  trans := .trans
  settle _ _ _ _ := ⟨List.Subset.refl _, rfl, rfl, rfl⟩
  note _ _ _ _ := ⟨List.Subset.refl _, rfl, rfl, rfl⟩
  sendQc _ _ := ⟨List.Subset.refl _, rfl, rfl, rfl⟩
  noteCommit _ _ := ⟨List.Subset.refl _, rfl, rfl, rfl⟩
  rollback _ _ := ⟨map_subset _ filter_sublist.subset, rfl, rfl, rfl⟩
  crashCommit _ _ _ := ⟨List.Subset.refl _, rfl, rfl, rfl⟩
  byzantineCommit _ _ _ _ := ⟨map_subset _ (dropWhile_sublist _).subset, rfl, rfl, rfl⟩
  stabilize _ _ := ⟨List.Subset.refl _, rfl, rfl, rfl⟩
  markProposed staging thresh fastThresh := by
    refine ⟨?_, rfl, rfl, rfl⟩
    simp [StagingCore.blocks, Function.comp_def]
  jumpAsLeader staging block _ _ := by
    refine ⟨?_, rfl, rfl, rfl⟩
    rw [blocks_jumpAsLeader]
    exact filter_sublist.subset
  jumpAsFollower staging block _ _ := by
    refine ⟨?_, rfl, rfl, rfl⟩
    rw [blocks_jumpAsFollower]
    exact filter_sublist.subset
  updateView _ _ _ _ _ _ _ := by
    refine ⟨List.Subset.refl _, rfl, ?_, rfl⟩
    simp [clientVotes, vote?]
  queryPacemaker _ _ := ⟨List.Subset.refl _, rfl, rfl, rfl⟩

theorem proposeNewView_drops {viewNum configNum forks}
    (result : proposeNewView crypto staging viewNum configNum forks = some after) : Drops staging after := by
  cases proposeNewView_decides result with
  | turnedAway _ => exact .refl _
  | proposes _ _ _ _ _ _ _ _ _ _ _ sends _ =>
    obtain ⟨_, -, rfl⟩ := sendBlocks_eq sends
    simp only [truncateForNewView]
    split <;> exact ⟨map_subset _ filter_sublist.subset, rfl, rfl, rfl⟩

/-!
## Votes
-/

theorem vote_drops {sender vote} (taken : step crypto staging (.vote sender vote) = some after) :
    after.blocks ⊆ staging.blocks ∧ after.storageAckBuffer = staging.storageAckBuffer := by
  simp only [step, verifyAndProcessVote] at taken
  split at taken
  · split at taken
    · rcases drops_respected.processVote taken with rfl | drops
      · exact ⟨List.Subset.refl _, rfl⟩
      · have blocks := drops.blocks
        rw [blocks_countVote] at blocks
        exact ⟨blocks, drops.acks⟩
    · cases taken
      exact ⟨List.Subset.refl _, rfl⟩
  · cases taken
    exact ⟨List.Subset.refl _, rfl⟩

inductive BlockOutcome (staging : Staging) (block : CachedBlock) (storageAck : StorageAck) (final : Bool)
    (after : Staging) : Prop where
  | dropped : Drops staging after → BlockOutcome staging block storageAck final after
  | buffered : after.blocks ⊆ staging.blocks ++ [block] →
      after.storageAckBuffer = staging.storageAckBuffer ++ [storageAck] →
      newVotes staging after = [] → BlockOutcome staging block storageAck final after
  | voted : final = true → after.blocks ⊆ staging.blocks ++ [block] → after.storageAckBuffer = [] →
      (∀ vote ∈ newVotes staging after, vote.2 ⊆ staging.blocks ++ [block]) →
      BlockOutcome staging block storageAck final after

theorem BlockOutcome.blocks {block storageAck final}
    (outcome : BlockOutcome staging block storageAck final after) : after.blocks ⊆ staging.blocks ++ [block] := by
  cases outcome with
  | dropped drops => exact fun _ member => mem_append_left _ (drops.blocks member)
  | buffered blocks _ _ => exact blocks
  | voted _ blocks _ _ => exact blocks

theorem newVotes_eq_nil (sent : after.clientVotes = staging.clientVotes)
    (counted : after.countedVotes = staging.countedVotes) : newVotes staging after = [] := by
  simp [newVotes, sent, counted]

theorem BlockOutcome.of_votes {block storageAck final counts} (isFinal : final = true)
    (blocks : after.blocks ⊆ staging.blocks ++ [block]) (acks : after.storageAckBuffer = [])
    (counted : after.countedVotes = staging.countedVotes ++ counts)
    (pending : ∀ count ∈ counts, count.pending ⊆ staging.blocks ++ [block]) :
    BlockOutcome staging block storageAck final after := by
  refine .voted isFinal blocks acks fun vote isNew => ?_
  simp only [newVotes, counted, drop_left, mem_append, mem_map] at isNew
  rcases isNew with ⟨_, -, rfl⟩ | ⟨count, member, rfl⟩
  · exact blocks
  · exact pending count member

theorem BlockOutcome.of_drops {block storageAck final} (drops : Drops staging entered)
    (outcome : BlockOutcome entered block storageAck final after) :
    BlockOutcome staging block storageAck final after := by
  have grown : entered.blocks ++ [block] ⊆ staging.blocks ++ [block] := by
    intro other member
    rcases mem_append.mp member with member | member
    · exact mem_append_left _ (drops.blocks member)
    · exact mem_append_right _ member
  have same : newVotes staging after = newVotes entered after := by
    simp [newVotes, drops.sent, drops.counted]
  cases outcome with
  | dropped more => exact .dropped (drops.trans more)
  | buffered blocks acks votes =>
    exact .buffered (fun _ member => grown (blocks member)) (drops.acks ▸ acks) (same.trans votes)
  | voted isFinal blocks acks votes =>
    refine .voted isFinal (fun _ member => grown (blocks member)) acks ?_
    rw [same]
    exact fun vote isNew _ member => grown (votes vote isNew member)

theorem acceptAsLeader_outcome {block storageAck aeStats final}
    (result : acceptAsLeader crypto staging block storageAck aeStats final = some after) :
    BlockOutcome staging block storageAck final after := by
  have settled := drops_respected.settleForBlock staging block aeStats
  simp only [acceptAsLeader] at result
  split at result
  · cases result
    exact .dropped settled
  · apply BlockOutcome.of_drops settled
    generalize settleForBlock staging block aeStats = ready at result
    have pushed : (pushBlock ready block final).blocks ⊆ ready.blocks ++ [block] := by
      rw [blocks_pushBlock]
      exact List.Subset.refl _
    split at result
    · next isFinal =>
      unfold voteOnLastBlockForSelf at result
      split at result
      · cases result
      · rcases drops_respected.processVote result with rfl | drops
        · exact .of_votes isFinal pushed rfl (append_nil _).symm (forall_mem_nil _)
        · refine .of_votes isFinal ?_ drops.acks drops.counted ?_
          · intro other member
            have member := drops.blocks member
            rw [blocks_countVote] at member
            exact pushed member
          · intro count member
            rw [mem_singleton.mp member]
            exact pushed
    · cases result
      exact .buffered pushed rfl (newVotes_eq_nil rfl rfl)

theorem sendVote_spec {storageAck} (result : sendVoteOnLastBlockToLeader crypto staging storageAck = some after) :
    after.blocks = staging.blocks ∧ after.storageAckBuffer = [] ∧ after.countedVotes = staging.countedVotes := by
  unfold sendVoteOnLastBlockToLeader at result
  split at result
  · cases result
  · cases result
    exact ⟨rfl, rfl, rfl⟩

theorem checkGap_same (config oldViewIsStable staging) :
    (checkGap config oldViewIsStable staging).toStagingCore = staging.toStagingCore ∧
      (checkGap config oldViewIsStable staging).storageAckBuffer = staging.storageAckBuffer := by
  simp only [checkGap]
  split <;> exact ⟨rfl, rfl⟩

theorem acceptAsFollower_outcome {block storageAck aeStats final}
    (result : acceptAsFollower crypto staging block storageAck aeStats final = some after) :
    BlockOutcome staging block storageAck final after := by
  have settled := drops_respected.settleForBlock staging block aeStats
  simp only [acceptAsFollower] at result
  split at result
  · cases result
    exact .dropped settled
  · apply BlockOutcome.of_drops settled
    generalize settleForBlock staging block aeStats = ready at result
    simp only [followBlock] at result
    split at result
    · cases result
    · next certified processed =>
      obtain ⟨voted, votes, rfl⟩ := Option.map_eq_some_iff.mp result
      have drops := (drops_respected.followQcs processed).trans
        (drops_respected.doByzantineCommitIf (crypto.config.features.noQc && final) certified)
      generalize (if crypto.config.features.noQc && final then
        doByzantineCommit certified certified.bci certified.ci else certified) = ended at votes drops
      have pushed : ended.blocks ⊆ ready.blocks ++ [block] := by
        rw [← blocks_pushBlock block final]
        exact drops.blocks
      generalize (if final then doCrashCommit (pushBlock ready block final) (pushBlock ready block final).ci
        aeStats.ci else pushBlock ready block final).viewIsStable = oldViewIsStable
      obtain ⟨core, acks⟩ := checkGap_same crypto.config oldViewIsStable voted
      cases final with
      | true =>
        rw [if_pos rfl] at votes
        obtain ⟨blocks, empty, counted⟩ := sendVote_spec votes
        have counted : (checkGap crypto.config oldViewIsStable voted).countedVotes = ready.countedVotes ++ [] := by
          rw [core, counted, append_nil]
          exact drops.counted
        refine .of_votes rfl ?_ (acks.trans empty) counted (forall_mem_nil _)
        rw [core, blocks]
        exact pushed
      | false =>
        cases votes
        refine .buffered ?_ ?_ ?_
        · rw [core]
          exact pushed
        · rw [acks]
          exact congrArg (· ++ [storageAck]) drops.acks
        · apply newVotes_eq_nil
          · rw [clientVotes, core]
            exact drops.sent
          · rw [core]
            exact drops.counted

theorem step_block_outcome {block storageAck aeStats final}
    (taken : step crypto staging (.block block storageAck aeStats final) = some after) :
    BlockOutcome staging block storageAck final after := by
  have accept {entered : Staging} (drops : Drops staging entered)
      (result : acceptBlock crypto entered block storageAck aeStats final = some after) :
      BlockOutcome staging block storageAck final after := by
    unfold acceptBlock at result
    split at result
    · exact .of_drops drops (acceptAsLeader_outcome result)
    · exact .of_drops drops (acceptAsFollower_outcome result)
  rcases step_block_enters taken with ⟨-, rfl⟩ | ⟨entered, enters, accepted⟩
  · exact .dropped (.refl _)
  · cases enters with
    | sameView => exact accept (.refl _) accepted
    | leaderJumps later => exact accept (drops_respected.jumpAsLeader _ _ later) accepted
    | followerJumps later => exact accept (drops_respected.jumpAsFollower _ _ later) accepted

/-!
## What is voted for is stored
-/

structure StoredInv (watched : Watched) : Prop where
  held : ∀ block ∈ watched.staging.blocks, (block, .ok ()) ∈ watched.delivered ∨
    ∃ ack ∈ watched.staging.storageAckBuffer, (block, ack) ∈ watched.delivered
  voted : VotedIsStored watched

theorem StoredInv.quiet {watched event} (inv : StoredInv watched) (blocks : after.blocks ⊆ watched.staging.blocks)
    (acks : after.storageAckBuffer = watched.staging.storageAckBuffer)
    (none : ownVotes watched.staging after event = []) :
    StoredInv
      { staging := after
        delivered := watched.delivered ++ deliveryOf event
        votes := watched.votes ++ ownVotes watched.staging after event } := by
  constructor
  · intro block member
    rw [acks]
    rcases inv.held block (blocks member) with stored | ⟨ack, isBuffered, isDelivered⟩
    · exact .inl (mem_append_left _ stored)
    · exact .inr ⟨ack, isBuffered, mem_append_left _ isDelivered⟩
  · intro vote isVote block member covered
    rw [none, append_nil] at isVote
    exact mem_append_left _ (inv.voted vote isVote block member covered)

theorem StoredInv.step {watched next event} (inv : StoredInv watched) (ok : AwaitedOk watched event)
    (taken : watch crypto watched event = some next) : StoredInv next := by
  obtain ⟨_, stepped, rfl⟩ := Option.map_eq_some_iff.mp taken
  cases event with
  | timerTick enough =>
    have drops := drops_respected.timerTick stepped
    exact inv.quiet drops.blocks drops.acks rfl
  | pacemaker cmd =>
    cases cmd with
    | updateView viewNum configNum =>
      have drops := drops_respected.maybeUpdateView stepped
      exact inv.quiet drops.blocks drops.acks rfl
    | newViewForks viewNum configNum forks =>
      have drops := proposeNewView_drops stepped
      exact inv.quiet drops.blocks drops.acks rfl
    | queryEnoughVCMsg | myViewJumped | updateBCI => cases stepped
  | vote sender vote =>
    obtain ⟨blocks, acks⟩ := vote_drops stepped
    exact inv.quiet blocks acks rfl
  | block block storageAck aeStats final =>
    have cover {other : CachedBlock} (allOk : final = true) (member : other ∈ watched.staging.blocks ++ [block]) :
        (other, .ok ()) ∈ watched.delivered ++ [(block, storageAck)] := by
      subst allOk
      rcases mem_append.mp member with member | member
      · apply mem_append_left
        rcases inv.held other member with stored | ⟨ack, isBuffered, isDelivered⟩
        · exact stored
        · exact ok.2 ack isBuffered ▸ isDelivered
      · rw [mem_singleton.mp member, ok.1]
        exact mem_append_right _ mem_cons_self
    cases step_block_outcome stepped with
    | dropped drops => exact inv.quiet drops.blocks drops.acks (newVotes_eq_nil drops.sent drops.counted)
    | buffered blocks acks votes =>
      constructor
      · intro other member
        rw [acks]
        rcases mem_append.mp (blocks member) with member | member
        · rcases inv.held other member with stored | ⟨ack, isBuffered, isDelivered⟩
          · exact .inl (mem_append_left _ stored)
          · exact .inr ⟨ack, mem_append_left _ isBuffered, mem_append_left _ isDelivered⟩
        · rw [mem_singleton.mp member]
          exact .inr ⟨storageAck, mem_append_right _ mem_cons_self, mem_append_right _ mem_cons_self⟩
      · intro vote isVote other member covered
        simp only [ownVotes, votes, append_nil] at isVote
        exact mem_append_left _ (inv.voted vote isVote other member covered)
    | voted isFinal blocks acks votes =>
      constructor
      · exact fun other member => .inl (cover isFinal (blocks member))
      · intro vote isVote other member covered
        rcases mem_append.mp isVote with isOld | isNew
        · exact mem_append_left _ (inv.voted vote isOld other member covered)
        · exact cover isFinal (votes vote isNew member)

/-- In every run in which no awaited result of storage is an error, the blocks
that a vote covers are stored. -/
theorem votedIsStored_of_reaches {watched : Watched}
    (reached : Reaches (watch crypto) AwaitedOk { staging := new crypto.config } watched) :
    VotedIsStored watched := by
  apply StoredInv.voted
  apply reached.invariant
  · constructor
    · unfold new
      split <;> exact nofun
    · exact nofun
  · intro before after event inv ok taken
    exact inv.step ok taken

def deliverStored (block : CachedBlock) (storageAck : StorageAck) (final : Bool) : Event :=
  .block block storageAck { view := 1, viewIsStable := false, configNum := 1, sender := "node1", ci := 0 } final

/-- Storage fails for the one block, and the follower votes for it. -/
theorem failed_block_is_voted :
    ∃ watched, Reaches (watch (threeNodes "node2")) Any { staging := new (threeNodes "node2").config } watched ∧
      ¬ VotedIsStored watched :=
  exists_reaches_any [deliverStored (sampleBlock 1 1 1 0 []) (.error "disk full") true]
    (by decide +kernel)

theorem votedIsStored_of_two_blocks :
    ∃ watched, Reaches (watch (threeNodes "node2")) AwaitedOk { staging := new (threeNodes "node2").config } watched ∧
      (∃ vote ∈ watched.votes, vote.1.n = 2 ∧ vote.2.length = 2) ∧ VotedIsStored watched :=
  exists_reaches_and [deliverStored (sampleBlock 1 1 1 0 []) (.ok ()) false,
      deliverStored (sampleBlock 2 1 2 1 []) (.ok ()) true]
    (by decide +kernel) (by decide +kernel) fun reached _ => votedIsStored_of_reaches reached

end PirateShip.Staging
