import PirateShip.Staging.ChainInvariant
import PirateShip.Staging.Votes

/-! A node that has logged a block of its view, or voted in it, keeps what it
has logged for the rest of the view, as long as an unstable view brings it no
block that it is already past. -/

set_option autoImplicit false

namespace PirateShip.Staging

open List HashLinked StepSystem Option

variable {crypto : CryptoService} {staging entered after : Staging} {core next : StagingCore}
variable {hash : HashType} {block : CachedBlock} {storageAck : StorageAck} {aeStats : AppendEntriesStats}
  {final : Bool} {event : Event}

def sentVotes (core : StagingCore) : List ProtoVote :=
  core.client.filterMap fun message =>
    match message.2 with
    | .vote vote => some vote
    | _ => none

def Locked (core : StagingCore) : Prop := ∃ block ∈ core.log, block.block.view = core.view

def Voted (core : StagingCore) : Prop := ∃ vote ∈ sentVotes core, vote.view = core.view

/-- The vote and its signatures are for the hashes that `hashAt` allows. -/
structure Attests (crypto : CryptoService) (hashAt : Nat → HashType → Prop) (vote : ProtoVote) : Prop where
  digest : hashAt vote.n vote.forkDigest
  sigs : ∀ sig ∈ vote.sigArray, ∃ hash, hashAt sig.n hash ∧ sig.sig = crypto.sign hash

theorem Attests.mono {hashAt hashAt' vote} (attests : Attests crypto hashAt vote)
    (weaker : ∀ {n hash}, hashAt n hash → hashAt' n hash) :
    Attests crypto hashAt' vote where
  digest := weaker attests.digest
  sigs sig member := by
    obtain ⟨hash, allowed, signed⟩ := attests.sigs sig member
    exact ⟨hash, weaker allowed, signed⟩

def LogHas (log : List CachedBlock) (n : Nat) (hash : HashType) : Prop :=
  ∃ block ∈ log, block.block.n = n ∧ block.blockHash = hash

theorem LogHas.of_prefix {log more n} (has : LogHas log n hash) (grown : log <+: more) : LogHas more n hash := by
  obtain ⟨block, member, facts⟩ := has
  exact ⟨block, grown.subset member, facts⟩

theorem LogHas.hashAt {log} (chain : Follows 0 none log) :
    ∃ hashAt : Nat → HashType, ∀ {n hash}, LogHas log n hash → hashAt n = hash := by
  refine ⟨fun n => ((log.find? fun block => block.block.n == n).map (·.blockHash)).getD [], ?_⟩
  rintro n hash ⟨block, member, rfl, rfl⟩
  cases found : log.find? fun other => other.block.n == block.block.n with
  | none => exact absurd (find?_eq_none.mp found block member) (by simp)
  | some other =>
    have number := find?_some found
    have same : other = block := chain.eq_of_seq_eq (mem_of_find?_eq_some found) member (beq_iff_eq.mp number)
    simp [found, same]

theorem LogHas.of_cut {log kept} (chain : Follows 0 none log) (cut : kept <+: log) {n} (inside : n ≤ kept.length)
    (has : LogHas log n hash) :
    LogHas kept n hash := by
  obtain ⟨block, member, rfl, rfl⟩ := has
  refine ⟨block, ?_, rfl, rfl⟩
  have below := chain.filter_seq_le kept.length
  rw [Nat.sub_zero, ← prefix_iff_eq_take.mp cut] at below
  rw [← below]
  exact mem_filter.mpr ⟨member, decide_eq_true inside⟩

/-- Votes of the current view are for blocks in the log, and those of an
earlier view were for the blocks of one log. -/
structure LockInv (crypto : CryptoService) (core : StagingCore) : Prop where
  past : ∀ vote ∈ sentVotes core, vote.view ≤ core.view
  votes : ∀ vote ∈ sentVotes core, vote.view = core.view → Attests crypto (LogHas core.log) vote
  signatures : ∀ pending ∈ core.pendingSignatures, pending.1 ≤ core.log.length →
    pending.2.n = pending.1 ∧
      ∃ hash, LogHas core.log pending.1 hash ∧ pending.2.sig = crypto.sign hash
  older : ∀ view < core.view, ∃ hashAt : Nat → HashType,
    ∀ vote ∈ sentVotes core, vote.view = view → Attests crypto (fun n hash => hashAt n = hash) vote

structure Quiet (core next : StagingCore) : Prop where
  view : next.view = core.view
  client : next.client = core.client
  signatures : next.pendingSignatures ⊆ core.pendingSignatures

theorem Quiet.refl (core) : Quiet core core := ⟨rfl, rfl, List.Subset.refl _⟩

theorem Quiet.trans {last} (first : Quiet core next) (second : Quiet next last) : Quiet core last :=
  ⟨second.view.trans first.view, second.client.trans first.client,
    fun _ member => first.signatures (second.signatures member)⟩

theorem Quiet.sentVotes (quiet : Quiet core next) : sentVotes next = sentVotes core := by
  rw [Staging.sentVotes, quiet.client, Staging.sentVotes]

namespace LockInv

variable (inv : LockInv crypto core)
include inv

variable (chain : Follows 0 none core.log)
include chain

theorem quiet (quiet : Quiet core next)
    (cut : next.log <+: core.log) (kept : Voted core → core.log <+: next.log) : LockInv crypto next where
  past := by
    rw [quiet.sentVotes, quiet.view]
    exact inv.past
  votes := by
    rw [quiet.sentVotes, quiet.view]
    intro vote sent same
    exact (inv.votes vote sent same).mono fun has => has.of_prefix (kept ⟨vote, sent, same⟩)
  signatures pending member inside := by
    obtain ⟨number, hash, has, signed⟩ :=
      inv.signatures pending (quiet.signatures member) (inside.trans cut.length_le)
    exact ⟨number, hash, has.of_cut chain cut inside, signed⟩
  older := by
    rw [quiet.sentVotes, quiet.view]
    exact inv.older

theorem hashAt (view) : ∃ hashAt : Nat → HashType, ∀ vote ∈ sentVotes core, vote.view = view →
      Attests crypto (fun n hash => hashAt n = hash) vote := by
  rcases Nat.lt_trichotomy view core.view with earlier | rfl | _
  · exact inv.older view earlier
  · obtain ⟨hashAt, agrees⟩ := LogHas.hashAt chain
    exact ⟨hashAt, fun vote member same => (inv.votes vote member same).mono agrees⟩
  · refine ⟨fun _ => [], fun vote member same => ?_⟩
    have := inv.past vote member
    omega

theorem enter (later : core.view < next.view) (sent : sentVotes next = sentVotes core)
    (signatures : next.pendingSignatures ⊆ core.pendingSignatures) (cut : next.log <+: core.log) :
    LockInv crypto next where
  past vote member := (inv.past vote (sent ▸ member)).trans later.le
  votes vote member same := by
    have := inv.past vote (sent ▸ member)
    omega
  signatures pending member inside := by
    obtain ⟨number, hash, has, signed⟩ := inv.signatures pending (signatures member) (inside.trans cut.length_le)
    exact ⟨number, hash, has.of_cut chain cut inside, signed⟩
  older view _ := by
    rw [sent]
    exact inv.hashAt chain view

omit chain

theorem push (quiet : Quiet core next) {block} (grown : next.log = core.log ++ [block])
    (below : ∀ pending ∈ core.pendingSignatures, pending.1 ≤ core.log.length) :
    LockInv crypto next where
  past := by
    rw [quiet.sentVotes, quiet.view]
    exact inv.past
  votes := by
    rw [quiet.sentVotes, quiet.view, grown]
    exact fun vote sent same =>
      (inv.votes vote sent same).mono fun has => has.of_prefix (prefix_append _ _)
  signatures pending member _ := by
    have held := quiet.signatures member
    obtain ⟨number, hash, has, signed⟩ := inv.signatures pending held (below pending held)
    rw [grown]
    exact ⟨number, hash, has.of_prefix (prefix_append _ _), signed⟩
  older := by
    rw [quiet.sentVotes, quiet.view]
    exact inv.older

omit inv

theorem sendVote {storageAck} (inv : LockInv crypto staging.toStagingCore)
    (below : ∀ pending ∈ staging.pendingSignatures, pending.1 ≤ staging.log.length)
    (sends : sendVoteOnLastBlockToLeader crypto staging storageAck = some after) :
    LockInv crypto after.toStagingCore := by
  obtain ⟨last, atEnd, sent⟩ := sendVote_core sends
  have member : last.block ∈ staging.log := mem_append_right _ (mem_map_of_mem (mem_of_getLast? atEnd))
  have has : LogHas staging.log last.n last.block.blockHash := ⟨last.block, member, rfl, rfl⟩
  have mine : ∀ sig ∈ voteSignature crypto last.block, sig.n = last.n ∧
      sig.sig = crypto.sign last.block.blockHash := by
    intro sig signed
    unfold voteSignature at signed
    split at signed
    · rw [mem_singleton.mp signed]
      exact ⟨rfl, rfl⟩
    · cases signed
  obtain ⟨vote, fields⟩ : ∃ vote, vote = voteFor staging last.block
      ((if last.block.block.isSigned then staging.pendingSignatures.map (·.2) else []) ++
        voteSignature crypto last.block) := ⟨_, rfl⟩
  have attests : Attests crypto (LogHas staging.log) vote := by
    rw [fields]
    refine ⟨has, fun sig attached => ?_⟩
    rcases mem_append.mp attached with resent | new
    · split at resent
      · obtain ⟨pending, held, rfl⟩ := mem_map.mp resent
        obtain ⟨number, hash, has, signed⟩ := inv.signatures pending held (below pending held)
        exact ⟨hash, number ▸ has, signed⟩
      · cases resent
    · exact ⟨last.block.blockHash, (mine sig new).1 ▸ has, (mine sig new).2⟩
  have view : vote.view = staging.view := by rw [fields]; rfl
  rw [← fields] at sent
  have votes : sentVotes after.toStagingCore = sentVotes staging.toStagingCore ++ [vote] := by
    rw [sent, sentVotes, filterMap_append]
    rfl
  have log : after.log = staging.log := by rw [sent]; rfl
  have sameView : after.view = staging.view := by rw [sent]
  constructor
  · intro other sent
    rw [votes, mem_append, mem_singleton] at sent
    rcases sent with sent | rfl
    · exact sameView ▸ inv.past other sent
    · exact (view.trans sameView.symm).le
  · intro other sent same
    rw [votes, mem_append, mem_singleton] at sent
    rw [log]
    rcases sent with sent | rfl
    · exact inv.votes other sent (same.trans sameView)
    · exact attests
  · intro pending held inside
    rw [log] at inside ⊢
    rw [sent] at held
    rcases mem_append.mp held with held | new
    · exact inv.signatures pending held inside
    · obtain ⟨sig, signed, rfl⟩ := mem_map.mp new
      exact ⟨(mine sig signed).1, last.block.blockHash, has, (mine sig signed).2⟩
  · intro earlier before
    rw [sameView] at before
    obtain ⟨hashAt, agrees⟩ := inv.older earlier before
    refine ⟨hashAt, fun other sent same => ?_⟩
    rw [votes, mem_append, mem_singleton] at sent
    rcases sent with sent | rfl
    · exact agrees other sent same
    · omega

end LockInv

/-!
## Operations that send nothing
-/

theorem quiet_respected : RespectsInView fun staging after => Quiet staging.toStagingCore after.toStagingCore where
  refl _ := .refl _
  trans := .trans
  settle _ _ _ _ := ⟨rfl, rfl, List.Subset.refl _⟩
  rollback _ _ := ⟨rfl, rfl, filter_sublist.subset⟩
  note _ _ _ _ := ⟨rfl, rfl, filter_sublist.subset⟩
  byzantineCommit _ _ _ _ := ⟨rfl, rfl, List.Subset.refl _⟩
  stabilize _ _ := ⟨rfl, rfl, List.Subset.refl _⟩
  crashCommit _ _ _ := ⟨rfl, rfl, List.Subset.refl _⟩
  sendQc _ _ := ⟨rfl, rfl, List.Subset.refl _⟩
  markProposed _ _ _ := ⟨rfl, rfl, List.Subset.refl _⟩
  noteCommit _ _ := ⟨rfl, rfl, List.Subset.refl _⟩

theorem truncateForNewView_quiet (staging retainN) :
    Quiet staging.toStagingCore (truncateForNewView staging retainN).toStagingCore := by
  unfold truncateForNewView
  dsimp only
  split <;> exact ⟨rfl, rfl, List.Subset.refl _⟩

theorem Counts.quiet {sender vote} (counts : Counts crypto staging sender vote after) :
    Quiet staging.toStagingCore after.toStagingCore := by
  obtain ⟨_, crashes, creates⟩ := counts.result
  have counted : Quiet staging.toStagingCore (countVote staging sender vote).toStagingCore :=
    ⟨rfl, rfl, List.Subset.refl _⟩
  exact (counted.trans (quiet_respected.maybeCrashCommit crashes)).trans (quiet_respected.maybeCreateQcs creates)

/-!
## Steps
-/

/-- Once the node has locked or voted in its view, an unstable view brings only
blocks above the pending ones, and no second new view is proposed in it. In a
stable view no signature is pending for the block or one above it. -/
def LockOk (staging : Staging) (event : Event) : Prop :=
  ChainOk staging event ∧
    match event with
    | .block block _ aeStats _ => aeStats.view = staging.view →
      (staging.viewIsStable = true ∧ aeStats.viewIsStable = true →
        ∀ pending ∈ staging.pendingSignatures, pending.1 < block.block.n) ∧
      (¬ (staging.viewIsStable = true ∧ aeStats.viewIsStable = true) →
        Locked staging.toStagingCore ∨ Voted staging.toStagingCore →
          ∀ other ∈ staging.blocks, other.block.n < block.block.n)
    | .pacemaker (.newViewForks viewNum _ _) => viewNum = staging.view →
      ¬ (Locked staging.toStagingCore ∨ Voted staging.toStagingCore)
    | _ => True

instance : DecidablePred Locked := fun core => inferInstanceAs (Decidable (∃ _ ∈ core.log, _))

instance : DecidablePred Voted := fun core => inferInstanceAs (Decidable (∃ _ ∈ sentVotes core, _))

instance (staging : Staging) : ∀ event, Decidable (LockOk staging event)
  | .block .. => inferInstanceAs (Decidable (_ ∧ (_ → _ ∧ _)))
  | .pacemaker (.newViewForks ..) => inferInstanceAs (Decidable (_ ∧ (_ → ¬ _)))
  | .pacemaker (.updateView ..) | .pacemaker (.myViewJumped ..) | .pacemaker (.updateBCI _)
  | .pacemaker (.queryEnoughVCMsg ..) | .timerTick _ | .vote .. =>
    inferInstanceAs (Decidable (_ ∧ True))

theorem settleForBlock_signatures (positive : 0 < block.block.n)
    (ok : LockOk staging (.block block storageAck aeStats final))
    (enters : Enters crypto staging block aeStats entered) :
    ∀ pending ∈ (settleForBlock entered block aeStats).pendingSignatures, pending.1 < block.block.n := by
  rw [settleForBlock_core]
  split
  · next stable =>
    cases enters with
    | sameView same => exact (ok.2 same).1 stable
    | leaderJumps => cases stable.1
    | followerJumps => cases stable.1
  · intro pending held
    have below := of_decide_eq_true (mem_filter.mp held).2
    rw [wrappingPred_of_pos positive] at below
    omega

theorem settleForBlock_keeps
    (ok : LockOk staging (.block block storageAck aeStats final)) (same : aeStats.view = staging.view)
    (bound : Locked staging.toStagingCore ∨ Voted staging.toStagingCore) :
    (settleForBlock staging block aeStats).log = staging.log := by
  rw [settleForBlock_core]
  split
  · rfl
  · next unstable =>
    have kept : (staging.blocks.filter fun other =>
        decide (other.block.n ≤ wrappingPred block.block.n)) = staging.blocks := by
      refine filter_eq_self.mpr fun other member => decide_eq_true ?_
      have := (ok.2 same).2 unstable bound other member
      rw [wrappingPred_of_pos (by omega)]
      omega
    rw [StagingCore.log, blocks_rollback, committed_rollback]
    exact congrArg (staging.committed ++ ·) kept

theorem Enters.settles (chain : ChainInv staging.toStagingCore) (inv : LockInv crypto staging.toStagingCore)
    (ok : LockOk staging (.block block storageAck aeStats final))
    (enters : Enters crypto staging block aeStats entered) :
    LockInv crypto (settleForBlock entered block aeStats).toStagingCore := by
  have entry := chain.cut (enters.cut chain)
  have settled := (settleForBlock_cut entry block aeStats).log
  have quiet := quiet_respected.settleForBlock entered block aeStats
  cases enters with
  | sameView same =>
    refine inv.quiet chain.chain quiet settled fun voted => ?_
    rw [settleForBlock_keeps ok same (.inr voted)]
  | leaderJumps later leads =>
    have cut := (Enters.cut (.leaderJumps later leads : Enters crypto staging block aeStats _) chain).log
    have entered : LockInv crypto (jumpAsLeader staging block aeStats).toStagingCore :=
      inv.enter chain.chain later rfl filter_sublist.subset cut
    refine entered.quiet entry.chain quiet settled fun ⟨vote, sent, same⟩ => ?_
    exact absurd (inv.past vote sent) (by rw [same]; exact Nat.not_le.mpr later)
  | followerJumps later follows =>
    have cut := (Enters.cut (.followerJumps later follows : Enters crypto staging block aeStats _) chain).log
    have entered : LockInv crypto (jumpAsFollower staging block aeStats).toStagingCore :=
      inv.enter chain.chain later rfl filter_sublist.subset cut
    refine entered.quiet entry.chain quiet settled fun ⟨vote, sent, same⟩ => ?_
    exact absurd (inv.past vote sent) (by rw [same]; exact Nat.not_le.mpr later)

theorem pushBlock_quiet (staging block final) :
    Quiet staging.toStagingCore (pushBlock staging block final).toStagingCore :=
  ⟨rfl, rfl, List.Subset.refl _⟩

theorem pushBlock_lock (chain : ChainInv staging.toStagingCore) (inv : LockInv crypto staging.toStagingCore)
    (ok : LockOk staging (.block block storageAck aeStats final))
    (enters : Enters crypto staging block aeStats entered)
    (continuous : checkContinuity (settleForBlock entered block aeStats) block = true) :
    let pushed := pushBlock (settleForBlock entered block aeStats) block final
    LockInv crypto pushed.toStagingCore ∧ ∀ pending ∈ pushed.pendingSignatures, pending.1 < pushed.log.length := by
  intro pushed
  obtain ⟨-, grown, number⟩ := pushBlock_chain chain ok.1 enters continuous
  have positive : 0 < block.block.n := by
    rw [number, grown, length_append, length_singleton]
    omega
  have below := settleForBlock_signatures positive ok enters
  refine ⟨(enters.settles chain inv ok).push (pushBlock_quiet _ _ _) grown ?_, ?_⟩
  · intro pending held
    have := below pending held
    rw [number, grown, length_append, length_singleton] at this
    omega
  · exact number ▸ below

theorem Transition.lockInv (transition : Transition crypto staging event after)
    (ok : LockOk staging event) (chain : ChainInv staging.toStagingCore)
    (inv : LockInv crypto staging.toStagingCore) : LockInv crypto after.toStagingCore := by
  cases transition with
  | idle core => rwa [core]
  | enterView _ later core =>
    refine inv.enter chain.chain ?_ ?_ ?_ ?_ <;> rw [core]
    · exact later
    · simp [sentVotes]
    · exact List.Subset.refl _
    · exact prefix_rfl
  | newView current _ _ _ core =>
    rw [core]
    exact inv.quiet chain.chain (truncateForNewView_quiet _ _) (truncateForNewView_cut chain _).log
      fun voted => absurd (.inr voted) (ok.2 current)
  | vote _ _ counts =>
    have log := (counts.chain chain).2
    exact inv.quiet chain.chain counts.quiet (by rw [log]) fun _ => by rw [log]
  | reject enters _ => exact enters.settles chain inv ok
  | append enters _ continuous core =>
    rw [core]
    exact (pushBlock_lock chain inv ok enters continuous).1
  | lead enters _ continuous core counts =>
    have pushedChain := (pushBlock_chain chain ok.1 enters continuous).1
    have pushed := (pushBlock_lock chain inv ok enters continuous).1
    rw [← core] at pushedChain pushed
    have log := (counts.chain pushedChain).2
    exact pushed.quiet pushedChain.chain counts.quiet (by rw [log]) fun _ => by rw [log]
  | follow enters _ continuous processed ends =>
    obtain ⟨pushedChain, -, number⟩ := pushBlock_chain chain ok.1 enters continuous
    obtain ⟨pushed, below⟩ := pushBlock_lock chain inv ok enters continuous
    have log := (certify_chain pushedChain (number ▸ ok.1.1) processed).2
    have quiet := quiet_respected.followQcs processed
    have certified := pushed.quiet pushedChain.chain quiet (by rw [log]) fun _ => by rw [log]
    cases ends with
    | waits _ core => rwa [core]
    | votes _ sends core =>
      rw [core]
      refine certified.sendVote (fun pending held => ?_) sends
      rw [log]
      exact (below pending (quiet.signatures held)).le

/-- From one state to a later one the view does not go back, and the log of a
node that is bound in its view only grows there. -/
def Grows (core next : StagingCore) : Prop :=
  core.view ≤ next.view ∧
    (next.view = core.view → Locked core ∨ Voted core → core.log <+: next.log)

theorem Grows.of_eq (view : next.view = core.view) (log : next.log = core.log) : Grows core next :=
  ⟨view.ge, fun _ _ => by rw [log]⟩

theorem Grows.then_eq {last} (grows : Grows core next) (view : last.view = next.view)
    (log : last.log = next.log) : Grows core last := by
  unfold Grows
  rwa [view, log]

theorem Enters.grows (ok : LockOk staging (.block block storageAck aeStats final))
    (enters : Enters crypto staging block aeStats entered) :
    Grows staging.toStagingCore (settleForBlock entered block aeStats).toStagingCore := by
  have quiet := quiet_respected.settleForBlock entered block aeStats
  cases enters with
  | sameView same =>
    exact ⟨quiet.view.ge, fun _ bound => by rw [settleForBlock_keeps ok same bound]⟩
  | leaderJumps later =>
    have later : staging.view < (jumpAsLeader staging block aeStats).view := later
    rw [← quiet.view] at later
    exact ⟨later.le, fun view _ => absurd view later.ne'⟩
  | followerJumps later =>
    have later : staging.view < (jumpAsFollower staging block aeStats).view := later
    rw [← quiet.view] at later
    exact ⟨later.le, fun view _ => absurd view later.ne'⟩

theorem pushBlock_grows (chain : ChainInv staging.toStagingCore)
    (ok : LockOk staging (.block block storageAck aeStats final))
    (enters : Enters crypto staging block aeStats entered)
    (continuous : checkContinuity (settleForBlock entered block aeStats) block = true) :
    Grows staging.toStagingCore (pushBlock (settleForBlock entered block aeStats) block final).toStagingCore := by
  obtain ⟨later, kept⟩ := enters.grows ok
  obtain ⟨-, grown, -⟩ := pushBlock_chain chain ok.1 enters continuous
  refine ⟨later, fun view bound => (kept view bound).trans ?_⟩
  rw [grown]
  exact prefix_append _ _

theorem Transition.grows (transition : Transition crypto staging event after)
    (ok : LockOk staging event) (chain : ChainInv staging.toStagingCore) :
    Grows staging.toStagingCore after.toStagingCore := by
  cases transition with
  | idle core => exact .of_eq (by rw [core]) (by rw [core])
  | enterView _ later core =>
    rw [core]
    exact ⟨later.le, fun _ _ => prefix_rfl⟩
  | newView current _ _ _ core =>
    rw [core]
    exact ⟨(truncateForNewView_quiet _ _).view.ge, fun _ bound => absurd bound (ok.2 current)⟩
  | vote _ _ counts => exact .of_eq counts.quiet.view (counts.chain chain).2
  | reject enters _ => exact enters.grows ok
  | append enters _ continuous core =>
    rw [core]
    exact pushBlock_grows chain ok enters continuous
  | lead enters _ continuous core counts =>
    have pushed := pushBlock_grows chain ok enters continuous
    have pushedChain := (pushBlock_chain chain ok.1 enters continuous).1
    rw [← core] at pushed pushedChain
    exact pushed.then_eq counts.quiet.view (counts.chain pushedChain).2
  | follow enters _ continuous processed ends =>
    obtain ⟨pushedChain, -, number⟩ := pushBlock_chain chain ok.1 enters continuous
    have quiet := quiet_respected.followQcs processed
    have log := (follow_chain pushedChain (number ▸ ok.1.1) processed ends).2
    exact (pushBlock_grows chain ok enters continuous).then_eq (ends.fewer.view.trans quiet.view) log

/-!
## Whole runs
-/

theorem lockInv_new (config) : LockInv crypto (new config).toStagingCore := by
  unfold new
  split <;> exact ⟨nofun, nofun, nofun, fun _ _ => ⟨fun _ => [], nofun⟩⟩

theorem lockInv_of_reaches (withQcs : crypto.config.features.noQc = false)
    (reached : Reaches (step crypto) LockOk (new crypto.config) staging) :
    ChainInv staging.toStagingCore ∧ LockInv crypto staging.toStagingCore := by
  refine reached.invariant
    (motive := fun staging => ChainInv staging.toStagingCore ∧ LockInv crypto staging.toStagingCore)
    ⟨chainInv_new crypto.config, lockInv_new crypto.config⟩ fun ⟨chain, inv⟩ ok taken => ?_
  have transition := step_transition withQcs taken
  exact ⟨transition.chain chain ok.1, transition.lockInv ok chain inv⟩

theorem grows_of_reaches {later} (withQcs : crypto.config.features.noQc = false)
    (reached : Reaches (step crypto) LockOk (new crypto.config) staging) (locked : Locked staging.toStagingCore)
    (continued : Reaches (step crypto) LockOk staging later) :
    staging.view ≤ later.view ∧
      (later.view = staging.view → Locked later.toStagingCore ∧ staging.log <+: later.log) := by
  induction continued with
  | refl => exact ⟨le_rfl, fun _ => ⟨locked, prefix_rfl⟩⟩
  | tail before ok taken ih =>
    have chain := (lockInv_of_reaches withQcs (reached.trans before)).1
    obtain ⟨forward, grows⟩ := (step_transition withQcs taken).grows ok chain
    refine ⟨ih.1.trans forward, fun view => ?_⟩
    obtain ⟨locked, kept⟩ := ih.2 (le_antisymm (view ▸ forward) ih.1)
    have grown := grows (le_antisymm (view ▸ ih.1) forward) (.inl locked)
    obtain ⟨block, member, same⟩ := locked
    refine ⟨⟨block, grown.subset member, ?_⟩, kept.trans grown⟩
    rw [same]
    exact le_antisymm forward (view ▸ ih.1)

/-- In every run in which an unstable view brings a bound node no block that it
is already past, the log of a locked node is append-only in its view, and all
votes and signatures sent in one view are for the blocks of one log. -/
theorem viewLock_of_reaches (withQcs : crypto.config.features.noQc = false)
    (reached : Reaches (step crypto) LockOk (new crypto.config) staging) :
    (Locked staging.toStagingCore → ∀ later, Reaches (step crypto) LockOk staging later →
      later.view = staging.view → staging.log <+: later.log) ∧
    ∀ view, ∃ hashAt : Nat → HashType, ∀ vote ∈ sentVotes staging.toStagingCore, vote.view = view →
      Attests crypto (fun n hash => hashAt n = hash) vote := by
  constructor
  · intro locked later continued view
    exact ((grows_of_reaches withQcs reached locked continued).2 view).2
  · obtain ⟨chain, inv⟩ := lockInv_of_reaches withQcs reached
    exact inv.hashAt chain.chain

/-- The leader of view 1 sends two first blocks, one after the other. The node
logs and votes for both. -/
theorem equivocation_replaces_voted_block :
    ∃ staging after, Reaches (step (threeNodes "node2")) Any (new (threeNodes "node2").config) staging ∧
      Locked staging.toStagingCore ∧
      step (threeNodes "node2") staging (deliver (sampleBlock 1 1 2 0 []) 1 0 false) = some after ∧
      after.view = staging.view ∧ ¬ staging.log <+: after.log ∧
      ∃ first ∈ sentVotes after.toStagingCore, ∃ second ∈ sentVotes after.toStagingCore,
        first.view = second.view ∧ first.n = second.n ∧ first.forkDigest ≠ second.forkDigest := by
  have ran : ∃ staging, Reaches (step (threeNodes "node2")) Any (new (threeNodes "node2").config)
      staging ∧ Locked staging.toStagingCore ∧
      ∃ after ∈ step (threeNodes "node2") staging (deliver (sampleBlock 1 1 2 0 []) 1 0 false),
        after.view = staging.view ∧ ¬ staging.log <+: after.log ∧
        ∃ first ∈ sentVotes after.toStagingCore, ∃ second ∈ sentVotes after.toStagingCore,
          first.view = second.view ∧ first.n = second.n ∧ first.forkDigest ≠ second.forkDigest :=
    exists_reaches_any [deliver (sampleBlock 1 1 1 0 []) 1 0 false] (by decide +kernel)
  obtain ⟨staging, reached, locked, after, taken, conflict⟩ := ran
  exact ⟨staging, after, reached, locked, taken, conflict⟩

theorem viewLock_after_delivery :
    ∃ staging, Reaches (step (threeNodes "node2")) LockOk (new (threeNodes "node2").config) staging ∧
      (Locked staging.toStagingCore ∧ (sentVotes staging.toStagingCore).length = 3) ∧
      (∀ later, Reaches (step (threeNodes "node2")) LockOk staging later →
        later.view = staging.view → staging.log <+: later.log) ∧
      ∃ hashAt : Nat → HashType, ∀ vote ∈ sentVotes staging.toStagingCore, vote.view = 1 →
        Attests (threeNodes "node2") (fun n hash => hashAt n = hash) vote := by
  refine exists_reaches_and delivery (by decide) (by decide) fun reached known => ?_
  obtain ⟨appendOnly, votes⟩ := viewLock_of_reaches rfl reached
  exact ⟨appendOnly known.1, votes 1⟩

end PirateShip.Staging
