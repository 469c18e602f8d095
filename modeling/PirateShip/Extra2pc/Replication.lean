import Mathlib.Data.List.Perm.Subperm
import PirateShip.Extra2pc
import PirateShip.Lib.Run

/-! What is stored where when the continuation of a command is released. A node that
confirms a value holds it, and no older write is under way to it, so it goes on
holding it. -/

set_option autoImplicit false

namespace PirateShip.TwoPC

open List StepSystem Option

variable {config : Config} {system after : TwoPC}
variable {second key : String} {value : Bytes} {running : Running} {cmd : TwoPCCommand} {index : Nat}
  {more : List TwoPCCommand} {outcome : PutOutcome} {event : Event}

/-!
## Keys
-/

theorem keyBytes_inj {first} : keyBytes first = keyBytes second ↔ first = second := toUTF8_inj

theorem finalKeyName_inj {first} : finalKeyName config first = finalKeyName config second ↔ first = second := by
  simp [finalKeyName]

theorem isNone_fromUTF8?_keyBytes (key) : (String.fromUTF8? ⟨(keyBytes key).toArray⟩).isNone = false := by
  have same : (⟨(keyBytes key).toArray⟩ : ByteArray) = key.toUTF8 := by simp [keyBytes]
  rw [same]
  simp [String.fromUTF8?, key.isValidUTF8]

/-!
## One message
-/

theorem handlePhaseMessage_phase1 (store) {msg : PhaseMessage} (outcome readable)
    (isPhase : msg.phase = .phase1) : handlePhaseMessage store msg.tx outcome readable =
      (putRaw store (keyBytes msg.key) msg.val outcome, phaseResult !ackIsErr outcome) := by
  simp [handlePhaseMessage, PhaseMessage.tx, isPhase, Phase.opType, ProtoTransactionOpType.fromI32,
    isNone_fromUTF8?_keyBytes, -List.reduceReplicate]

theorem handlePhaseMessage_phase2 (store) {msg : PhaseMessage} (outcome readable)
    (isPhase : msg.phase = .phase2) : handlePhaseMessage store msg.tx outcome readable =
      (store, phaseResult (readable && store (keyBytes msg.key) == some msg.val)) := by
  simp [handlePhaseMessage, PhaseMessage.tx, isPhase, Phase.opType, ProtoTransactionOpType.fromI32,
    isNone_fromUTF8?_keyBytes, -List.reduceReplicate]

theorem isSuccessAck_replyWith {clientTag tag success} :
    isSuccessAck tag (some (replyWith clientTag (phaseResult success))) = true ↔ clientTag = tag ∧ success = true := by
  simp [isSuccessAck, replyWith, succeeded, phaseResult]

/-!
## The invariant
-/

def Holds (config : Config) (system : TwoPC) (node key : String) (val : Bytes) : Prop :=
  system.stores node (keyBytes (finalKeyName config key)) = some val ∧
    ∀ msg ∈ system.links node, msg.phase = .phase1 → msg.key = finalKeyName config key → msg.val = val

instance (node key : String) (val : Bytes) : Decidable (Holds config system node key val) :=
  inferInstanceAs (Decidable (_ ∧ _))

def lastIndex (system : TwoPC) (key : String) : Nat := (system.localIndexCounter.lookup key).getD 0

def Settled (config : Config) (system : TwoPC) (key : String) (value : Bytes) : Prop :=
  majority config ≤ config.consensusConfig.nodeList.countP fun node =>
    Holds config system node key (storedValue (system.lastIndex key) value)

structure Keeps (config : Config) (before after : TwoPC) (key : String) : Prop where
  lastIndex : after.lastIndex key = before.lastIndex key
  holds : ∀ node val, Holds config before node key val → Holds config after node key val

theorem Settled.keep (settled : Settled config system key value)
    (keeps : Keeps config system after key) : Settled config after key value := by
  rw [Settled, keeps.lastIndex]
  refine Nat.le_trans settled (countP_mono_left fun node _ holds => ?_)
  exact decide_eq_true (keeps.holds node _ (of_decide_eq_true holds))

structure Net (config : Config) (system : TwoPC) : Prop where
  notMine : system.links config.netConfig.name = []
  sorted : ∀ node, (system.links node).Pairwise fun earlier later => earlier.clientTag ≤ later.clientTag
  msg_le : ∀ node, ∀ msg ∈ system.links node, msg.clientTag ≤ system.clientTagCounter
  ack_le : ∀ node, ∀ reply ∈ system.replies node, ∀ tag, isSuccessAck tag reply = true →
    tag ≤ system.clientTagCounter

structure Progress (config : Config) (system : TwoPC) (running : Running) : Prop where
  latest : ∀ node, ∀ msg ∈ system.links node, msg.clientTag = system.clientTagCounter →
    msg = ⟨system.clientTagCounter, running.phase, finalKeyName config running.cmd.key,
      storedValue running.index running.cmd.value⟩
  acked : running.phase = .phase2 → ∀ node reply, reply ∈ system.replies node ∨ (node, reply) ∈ running.replies →
    isSuccessAck system.clientTagCounter reply = true →
      Holds config system node running.cmd.key (storedValue running.index running.cmd.value)
  self : system.stores config.netConfig.name (keyBytes (finalKeyName config running.cmd.key)) =
    some (storedValue running.index running.cmd.value)
  names : List.Subperm (running.replies.map Prod.fst ++ running.waiting) (sendList config)
  index : running.index = system.lastIndex running.cmd.key

structure Inv (config : Config) (system : TwoPC) : Prop where
  net : Net config system
  progress : ∀ running ∈ system.running, Progress config system running

theorem Net.holds_self (net : Net config system) {val} : Holds config system config.netConfig.name key val ↔
      system.stores config.netConfig.name (keyBytes (finalKeyName config key)) = some val := by
  simp [Holds, net.notMine]

/-!
## Messages that are consumed
-/

/-- A node takes the next message from its link. `replies` says what a new reply
can be. -/
structure Consumes (config : Config) (system after : TwoPC) (node : String) (msg : PhaseMessage)
    (rest : List PhaseMessage) : Prop where
  head : system.links node = msg :: rest
  running : after.running = system.running
  counter : after.clientTagCounter = system.clientTagCounter
  indices : after.localIndexCounter = system.localIndexCounter
  links : ∀ other, after.links other = if other = node then rest else system.links other
  others : ∀ other, other ≠ node → after.stores other = system.stores other
  kept : ∀ key val, Holds config system node key val →
    after.stores node (keyBytes (finalKeyName config key)) = some val
  replies : ∀ other reply, reply ∈ after.replies other → reply ∈ system.replies other ∨
    other = node ∧ ∀ tag, isSuccessAck tag reply = true → tag = msg.clientTag ∧
      (msg.phase = .phase2 → after.stores node (keyBytes msg.key) = some msg.val)

variable {node : String} {msg : PhaseMessage} {rest : List PhaseMessage}

theorem Consumes.subset (consumes : Consumes config system after node msg rest) (other) :
    (after.links other).Sublist (system.links other) := by
  rw [consumes.links]
  split
  · next same =>
    subst same
    rw [consumes.head]
    exact sublist_cons_self msg rest
  · exact List.Sublist.refl _

theorem Consumes.keeps (consumes : Consumes config system after node msg rest) (key) :
    Keeps config system after key := by
  refine ⟨by rw [lastIndex, consumes.indices, lastIndex], fun other val holds => ?_⟩
  refine ⟨?_, fun msg member => holds.2 msg ((consumes.subset other).subset member)⟩
  by_cases same : other = node
  · subst same
    exact consumes.kept key val holds
  · rw [consumes.others other same]
    exact holds.1

theorem Progress.holds_of_confirmed (progress : Progress config system running)
    (net : Net config system) (consumes : Consumes config system after node msg rest)
    (isPhase2 : running.phase = .phase2) (isTag : system.clientTagCounter = msg.clientTag)
    (confirmed : msg.phase = .phase2 → after.stores node (keyBytes msg.key) = some msg.val) :
    Holds config after node running.cmd.key (storedValue running.index running.cmd.value) := by
  have isMsg := progress.latest node msg (by simp [consumes.head]) isTag.symm
  constructor
  · rw [isMsg] at confirmed
    exact confirmed isPhase2
  · -- The messages behind are of the latest broadcast, too, so none of them writes.
    intro behind member isPhase1
    have sorted := net.sorted node
    rw [consumes.head] at sorted
    rw [consumes.links, if_pos rfl] at member
    have inLink : behind ∈ system.links node := by simp [consumes.head, member]
    have isLatest : behind.clientTag = system.clientTagCounter :=
      Nat.le_antisymm (net.msg_le node behind inLink) (isTag ▸ (pairwise_cons.mp sorted).1 behind member)
    rw [progress.latest node behind inLink isLatest] at isPhase1
    exact absurd (isPhase1.symm.trans isPhase2) (by decide)

theorem Inv.consume (inv : Inv config system) (consumes : Consumes config system after node msg rest) :
    Inv config after := by
  have counter := consumes.counter
  have notMe : node ≠ config.netConfig.name := by
    rintro rfl
    exact absurd (inv.net.notMine.symm.trans consumes.head) (by simp)
  have inLink : msg ∈ system.links node := by simp [consumes.head]
  constructor
  · refine ⟨?_, ?_, ?_, ?_⟩
    · rw [consumes.links, if_neg notMe.symm]
      exact inv.net.notMine
    · exact fun other => (inv.net.sorted other).sublist (consumes.subset other)
    · intro other msg member
      rw [counter]
      exact inv.net.msg_le other msg ((consumes.subset other).subset member)
    · intro other reply member tag isAck
      rw [counter]
      rcases consumes.replies other reply member with old | ⟨-, new⟩
      · exact inv.net.ack_le other reply old tag isAck
      · exact (new tag isAck).1 ▸ inv.net.msg_le node msg inLink
  · intro running isRunning
    rw [consumes.running] at isRunning
    obtain ⟨latest, acked, self, names, index⟩ := inv.progress running isRunning
    refine ⟨?_, ?_, ?_, names, index.trans (consumes.keeps _).lastIndex.symm⟩
    · intro other msg member isLatest
      rw [counter] at isLatest ⊢
      exact latest other msg ((consumes.subset other).subset member) isLatest
    · intro isPhase2 other reply member isAck
      rw [counter] at isAck
      have old : reply ∈ system.replies other ∨ (other, reply) ∈ running.replies →
          Holds config after other running.cmd.key (storedValue running.index running.cmd.value) :=
        fun member => (consumes.keeps _).holds other _ (acked isPhase2 other reply member isAck)
      rcases member with member | member
      · rcases consumes.replies other reply member with member | ⟨rfl, new⟩
        · exact old (.inl member)
        · obtain ⟨isTag, confirmed⟩ := new _ isAck
          exact (inv.progress running isRunning).holds_of_confirmed inv.net consumes isPhase2 isTag confirmed
      · exact old (.inr member)
    · rw [consumes.others _ notMe.symm]
      exact self

/-!
## The handler
-/

theorem Net.broadcast {phase} (net : Net config system)
    (self : system.stores config.netConfig.name (keyBytes (finalKeyName config cmd.key)) =
      some (storedValue index cmd.value)) (isIndex : index = system.lastIndex cmd.key)
    (sent : system.broadcast config cmd index phase = some after) :
    Inv config after := by
  unfold TwoPC.broadcast at sent
  dsimp only at sent
  split at sent
  · cases sent
  · cases sent
    refine ⟨⟨?_, ?_, ?_, ?_⟩, ?_⟩
    · have notMine : (sendList config).count config.netConfig.name = 0 := by simp [sendList, count_eq_zero]
      simp [net.notMine, notMine]
    · intro node
      refine pairwise_append.mpr ⟨net.sorted node, pairwise_replicate.mpr (.inr (Nat.le_refl _)), ?_⟩
      intro old member new isNew
      rw [eq_of_mem_replicate isNew]
      exact Nat.le_succ_of_le (net.msg_le node old member)
    · intro node msg member
      rcases mem_append.mp member with old | new
      · exact Nat.le_succ_of_le (net.msg_le node msg old)
      · rw [eq_of_mem_replicate new]
    · exact fun node reply member tag isAck => Nat.le_succ_of_le (net.ack_le node reply member tag isAck)
    · intro running isRunning
      cases isRunning
      -- The tag is new, so neither an old message nor an old reply has it.
      refine ⟨?_, ?_, self, ?_, isIndex⟩
      · intro node msg member isLatest
        rcases mem_append.mp member with old | new
        · have := net.msg_le node msg old
          exact absurd isLatest (by dsimp only; omega)
        · exact eq_of_mem_replicate new
      · intro _ node reply member isAck
        rcases member with old | new
        · have := net.ack_le node reply old _ isAck
          exact absurd this (by dsimp only; omega)
        · cases new
      · exact List.Subperm.refl _

theorem keeps_broadcast {phase} (sent : system.broadcast config cmd index phase = some after)
    (other : phase = .phase2 ∨ cmd.key ≠ key) : Keeps config system after key := by
  unfold TwoPC.broadcast at sent
  dsimp only at sent
  split at sent
  · cases sent
  · cases sent
    refine ⟨rfl, fun node val holds => ⟨holds.1, fun msg member isPhase1 isKey => ?_⟩⟩
    rcases mem_append.mp member with old | new
    · exact holds.2 msg old isPhase1 isKey
    · rw [eq_of_mem_replicate new] at isPhase1 isKey
      rcases other with isPhase2 | differs
      · exact absurd (isPhase2.symm.trans isPhase1) (by decide)
      · exact absurd (finalKeyName_inj.mp isKey) differs

theorem Inv.receiveReply (inv : Inv config system) (received : system.receiveReply config node = some after) :
    Inv config after := by
  unfold TwoPC.receiveReply at received
  split at received
  · next running _ rest isRunning isHead =>
    split at received
    · next isWaiting =>
      cases received
      obtain ⟨latest, acked, self, names, index⟩ := inv.progress running isRunning
      have fewer : ∀ other left, left ∈ (if other = node then rest else system.replies other) →
          left ∈ system.replies other := by
        intro other left member
        split at member
        · next same => simp [same, isHead, member]
        · exact member
      refine ⟨⟨inv.net.notMine, inv.net.sorted, inv.net.msg_le, fun other left member => ?_⟩, ?_⟩
      · exact inv.net.ack_le other left (fewer other left member)
      · rintro _ ⟨⟩
        refine ⟨latest, fun isPhase2 other left member isAck => ?_, self, ?_, index⟩
        · rcases member with member | member
          · exact acked isPhase2 other left (.inl (fewer other left member)) isAck
          · split at member
            · rcases mem_append.mp member with old | new
              · exact acked isPhase2 other left (.inr old) isAck
              · cases mem_singleton.mp new
                exact acked isPhase2 _ _ (.inl (by simp [isHead])) isAck
            · exact acked isPhase2 other left (.inr member) isAck
        · -- The node moves from those waited for to those that replied, unless enough have.
          have moved : List.Perm (running.replies.map Prod.fst ++ node :: running.waiting.erase node)
              (running.replies.map Prod.fst ++ running.waiting) :=
            (perm_cons_erase isWaiting).symm.append_left _
          refine List.Subperm.trans ?_ (moved.subperm.trans names)
          split
          · rw [map_append, append_assoc]
            exact List.Subperm.refl _
          · exact ((sublist_cons_self _ _).append_left _).subperm
    · cases received
  · cases received

theorem countP_filter_ne_lt {α : Type} [DecidableEq α] {values : List α} {value : α} (test : α → Bool)
    (member : value ∈ values) (holds : test value = true) :
    (values.filter fun other => other ≠ value).countP test < values.countP test := by
  rw [countP_filter, (perm_cons_erase member).countP_eq, (perm_cons_erase member).countP_eq test,
    countP_cons, countP_cons]
  have le : (values.erase value).countP (fun other => test other && decide (other ≠ value)) ≤
      (values.erase value).countP test :=
    countP_mono_left fun other _ both => ((Bool.and_eq_true _ _).mp both).1
  simpa [holds] using Nat.lt_succ_of_le le

theorem Progress.settled (member : config.netConfig.name ∈ config.consensusConfig.nodeList)
    (net : Net config system) (progress : Progress config system running) (isPhase2 : running.phase = .phase2)
    (enough : majority config ≤
      running.replies.countP (fun reply => isSuccessAck system.clientTagCounter reply.2) + 1) :
    Settled config system running.cmd.key running.cmd.value := by
  rw [Settled, ← progress.index]
  have acks : running.replies.countP (fun reply => isSuccessAck system.clientTagCounter reply.2) ≤
      (sendList config).countP fun node =>
        Holds config system node running.cmd.key (storedValue running.index running.cmd.value) := by
    have named : List.Subperm
        ((running.replies.filter fun reply => isSuccessAck system.clientTagCounter reply.2).map Prod.fst)
        (sendList config) :=
      ((filter_sublist.map Prod.fst).trans (sublist_append_left _ _)).subperm.trans progress.names
    refine Nat.le_trans (Nat.le_of_eq ?_) (named.countP_le _)
    rw [countP_eq_length_filter, ← length_map (f := Prod.fst), eq_comm, countP_eq_length]
    intro node isNamed
    obtain ⟨⟨_, reply⟩, acked, rfl⟩ := mem_map.mp isNamed
    obtain ⟨isReply, isAck⟩ := mem_filter.mp acked
    exact decide_eq_true (progress.acked isPhase2 _ reply (.inr isReply) isAck)
  -- The node itself is not among those it sends to.
  have mine : Holds config system config.netConfig.name running.cmd.key
      (storedValue running.index running.cmd.value) := net.holds_self.mpr progress.self
  have withMe := countP_filter_ne_lt (fun node => decide (Holds config system node running.cmd.key
    (storedValue running.index running.cmd.value))) member (decide_eq_true mine)
  rw [sendList] at acks
  omega

/-!
## Votes
-/

def Preceded : Option TwoPCCommand → List TwoPCCommand → Prop
  | _, [] => True
  | previous, cmd :: rest =>
    (∀ vote, cmd.action.vote? = some vote →
      cmd = .logMeta vote cmd.action ∧ previous = some (.raftMeta vote)) ∧ Preceded (some cmd) rest

theorem Preceded.append {cmds previous} (preceded : Preceded previous cmds) (follows : ∀ last, Preceded last more) :
    Preceded previous (cmds ++ more) := by
  induction cmds generalizing previous with
  | nil => exact follows previous
  | cons cmd rest ih => exact ⟨preceded.1, ih preceded.2⟩

/-- Commands are done one after the other, so the raft meta data of a vote is
settled before its second command starts. -/
def Ordered (config : Config) (system : TwoPC) : Prop :=
  ∃ previous, Preceded previous system.commandRx ∧
    (system.running = none → ∀ cmd ∈ previous, Settled config system cmd.key cmd.value) ∧
    ∀ running ∈ system.running, previous = some running.cmd ∧
      ∀ vote, running.cmd.action.vote? = some vote →
        running.cmd = .logMeta vote running.cmd.action ∧
          Settled config system "raft_meta" (TwoPCCommand.raftMetaFile vote)

theorem Ordered.keep (ordered : Ordered config system)
    (running : after.running.map (·.cmd) = system.running.map (·.cmd))
    (commands : after.commandRx = system.commandRx ++ more) (follows : ∀ last, Preceded last more)
    (keeps : ∀ key, Keeps config system after key) : Ordered config after := by
  obtain ⟨previous, preceded, idle, busy⟩ := ordered
  refine ⟨previous, commands ▸ preceded.append follows, ?_, ?_⟩
  · intro isIdle cmd isPrevious
    have wasIdle : system.running = none := by simpa [isIdle] using running.symm
    exact (idle wasIdle cmd isPrevious).keep (keeps cmd.key)
  · intro now isNow
    rw [mem_def.mp isNow, map_some] at running
    obtain ⟨before, wasRunning, same⟩ := map_eq_some_iff.mp running.symm
    obtain ⟨isPrevious, ofVote⟩ := busy before wasRunning
    rw [← same]
    refine ⟨isPrevious, fun vote isVote => ?_⟩
    obtain ⟨isLogMeta, settled⟩ := ofVote vote isVote
    exact ⟨isLogMeta, settled.keep (keeps _)⟩

/-!
## Steps
-/

theorem consumes_deliver {readable} (head : system.links node = msg :: rest)
    (delivered : step config system (.deliver node outcome readable) = some after) :
    Consumes config system after node msg rest := by
  simp only [step, head, some.injEq] at delivered
  subst delivered
  refine ⟨head, rfl, rfl, rfl, fun _ => rfl, fun other differs => if_neg differs, ?_, ?_⟩
  · intro key val holds
    simp only [addReply, if_true]
    cases isPhase : msg.phase with
    | phase1 =>
      simp only [handlePhaseMessage_phase1 _ _ _ isPhase, putRaw]
      split
      · dsimp only
        split
        · next same =>
          have isVal := holds.2 msg (by simp [head]) isPhase (keyBytes_inj.mp same.symm)
          rw [isVal]
        · exact holds.1
      · exact holds.1
    | phase2 =>
      simp only [handlePhaseMessage_phase2 _ _ _ isPhase]
      exact holds.1
  · intro other reply member
    simp only [addReply] at member ⊢
    split at member
    · next same =>
      rcases mem_append.mp member with old | new
      · exact .inl old
      · refine .inr ⟨same, fun tag isAck => ?_⟩
        rw [mem_singleton.mp new] at isAck
        cases isPhase : msg.phase with
        | phase1 =>
          exact ⟨(isSuccessAck_replyWith.mp isAck).1.symm, fun isPhase2 => by cases isPhase2⟩
        | phase2 =>
          simp only [handlePhaseMessage_phase2 _ _ _ isPhase] at isAck ⊢
          obtain ⟨isTag, confirmed⟩ := isSuccessAck_replyWith.mp isAck
          exact ⟨isTag.symm, fun _ => beq_iff_eq.mp ((Bool.and_eq_true _ _).mp confirmed).2⟩
    · exact .inl member

theorem consumes_refuse {reply} (head : system.links node = msg :: rest)
    (refused : step config system (.refuse node reply) = some after) :
    Consumes config system after node msg rest := by
  simp only [step, head] at refused
  split at refused
  · cases refused
  · next failed =>
    cases refused
    refine ⟨head, rfl, rfl, rfl, fun _ => rfl, fun _ _ => rfl, fun _ _ holds => holds.1, ?_⟩
    intro other left member
    simp only [addReply] at member
    split at member
    · next same =>
      rcases mem_append.mp member with old | new
      · exact .inl old
      · refine .inr ⟨same, fun tag isAck => absurd ?_ failed⟩
        rw [mem_singleton.mp new] at isAck
        obtain ⟨payload, isReply, both⟩ := (any_eq_true _ _).mp isAck
        exact (any_eq_true _ _).mpr ⟨payload, isReply, ((Bool.and_eq_true _ _).mp both).2⟩
    · exact .inl member

structure Quiet (config : Config) (system after : TwoPC) : Prop where
  running : after.running = system.running
  counter : after.clientTagCounter = system.clientTagCounter
  indices : after.localIndexCounter = system.localIndexCounter
  links : after.links = system.links
  kept : ∀ node key val, system.stores node (keyBytes (finalKeyName config key)) = some val →
    after.stores node (keyBytes (finalKeyName config key)) = some val
  replies : ∀ node reply, reply ∈ after.replies node → reply ∈ system.replies node

theorem Quiet.keeps (quiet : Quiet config system after) (key) : Keeps config system after key := by
  refine ⟨by rw [lastIndex, quiet.indices, lastIndex], fun node val holds => ?_⟩
  exact ⟨quiet.kept node key val holds.1, quiet.links ▸ holds.2⟩

theorem Inv.quiet (inv : Inv config system) (quiet : Quiet config system after) : Inv config after := by
  have lastIndex (key : String) := (quiet.keeps key).lastIndex
  obtain ⟨running, counter, -, links, kept, replies⟩ := quiet
  refine ⟨⟨?_, ?_, ?_, ?_⟩, fun now isNow => ?_⟩
  · exact links ▸ inv.net.notMine
  · exact links ▸ inv.net.sorted
  · exact links ▸ counter ▸ inv.net.msg_le
  · exact fun node reply member => counter ▸ inv.net.ack_le node reply (replies node reply member)
  · obtain ⟨latest, acked, self, names, index⟩ := inv.progress now (running ▸ isNow)
    refine ⟨links ▸ counter ▸ latest, ?_, kept _ _ _ self, names, index.trans (lastIndex _).symm⟩
    intro isPhase2 node reply member isAck
    have holds := acked isPhase2 node reply (member.imp_left (replies node reply)) (counter ▸ isAck)
    exact ⟨kept _ _ _ holds.1, links ▸ holds.2⟩

def LocalPutsHold (_ : TwoPC) : Event → Prop
  | .takeCommand outcome => outcome.written = true ∧ outcome.result ≠ .closed
  | _ => True

instance : ∀ event, Decidable (LocalPutsHold system event)
  | .takeCommand _ => inferInstanceAs (Decidable (_ ∧ _))
  | .vote .. | .command .. | .deliver .. | .refuse .. | .loseMessage _ | .receiveReply _ | .loseReply _
  | .finishPhase | .otherPut .. => inferInstanceAs (Decidable True)

theorem broadcast_fields {phase} (sent : system.broadcast config cmd index phase = some after) :
    after.commandRx = system.commandRx ∧ after.stagingTx = system.stagingTx ∧
      ∃ running, after.running = some running ∧ running.cmd = cmd := by
  unfold TwoPC.broadcast at sent
  dsimp only at sent
  split at sent
  · cases sent
  · cases sent
    exact ⟨rfl, rfl, _, rfl, rfl⟩

theorem takeCommand_spec (hold : outcome.written = true ∧ outcome.result ≠ .closed)
    (taken : system.takeCommand config outcome = some after) :
    ∃ cmd rest index stored, system.running = none ∧ system.commandRx = cmd :: rest ∧
      TwoPC.broadcast config stored cmd index .phase1 = some after ∧
      stored.localIndexCounter = system.localIndexCounter.insert cmd.key index ∧
      stored.commandRx = rest ∧ stored.clientTagCounter = system.clientTagCounter ∧
      stored.stagingTx = system.stagingTx ∧ stored.links = system.links ∧ stored.replies = system.replies ∧
      ∀ node, stored.stores node = if node = config.netConfig.name then
        fun key => if key = keyBytes (finalKeyName config cmd.key) then some (storedValue index cmd.value)
          else system.stores node key
      else system.stores node := by
  unfold TwoPC.takeCommand at taken
  split at taken
  · next cmd rest isIdle isNext =>
    have notClosed : ackIsErr outcome = false := by simp [ackIsErr, hold.2]
    simp only [notClosed, putRaw, hold.1] at taken
    refine ⟨cmd, rest, _, _, isIdle, isNext, taken, rfl, rfl, rfl, rfl, rfl, rfl, fun node => ?_⟩
    by_cases mine : node = config.netConfig.name <;> simp [mine]
  · cases taken

theorem key_ne_raftMeta {vote action} (isLogMeta : cmd = .logMeta vote action) : cmd.key ≠ "raft_meta" := by
  rw [isLogMeta]
  show "log_meta" ≠ "raft_meta"
  decide

theorem step_takeCommand (inv : Inv config system) (ordered : Ordered config system)
    (hold : outcome.written = true ∧ outcome.result ≠ .closed)
    (taken : system.takeCommand config outcome = some after) : Inv config after ∧ Ordered config after := by
  obtain ⟨cmd, _, _, stored, isIdle, isNext, sent, indices, commands, counter, -, links, replies, stores⟩ :=
    takeCommand_spec hold taken
  have net : Net config stored := by
    refine ⟨links ▸ inv.net.notMine, links ▸ inv.net.sorted, links ▸ counter ▸ inv.net.msg_le, ?_⟩
    rw [replies, counter]
    exact inv.net.ack_le
  refine ⟨net.broadcast (by simp [stores]) (by simp [lastIndex, indices]) sent, ?_⟩
  obtain ⟨sameCommands, -, running, isRunning, isCmd⟩ := broadcast_fields sent
  obtain ⟨_, preceded, idle, -⟩ := ordered
  rw [isNext] at preceded
  refine ⟨some cmd, by rw [sameCommands, commands]; exact preceded.2, by simp [isRunning], ?_⟩
  intro now isNow
  obtain rfl : running = now := some.inj (isRunning.symm.trans isNow)
  rw [isCmd]
  refine ⟨rfl, fun vote isVote => ?_⟩
  obtain ⟨isLogMeta, isRaftMeta⟩ := preceded.1 vote isVote
  have apart : cmd.key ≠ "raft_meta" := key_ne_raftMeta isLogMeta
  have kept : Keeps config system stored "raft_meta" := by
    refine ⟨by simp [lastIndex, indices, AList.lookup_insert_ne apart.symm], fun node val holds => ?_⟩
    refine ⟨?_, links ▸ holds.2⟩
    rw [stores]
    split
    · simp only [keyBytes_inj, finalKeyName_inj, Ne.symm apart]
      exact holds.1
    · exact holds.1
  have settled : Settled config system "raft_meta" (TwoPCCommand.raftMetaFile vote) :=
    idle isIdle (.raftMeta vote) isRaftMeta
  exact ⟨isLogMeta, (settled.keep kept).keep (keeps_broadcast sent (.inr apart))⟩

theorem finishPhase_cases (finished : system.finishPhase config = some after) :
    ∃ running, system.running = some running ∧
      ((∃ phase, system.broadcast config running.cmd running.index phase = some after) ∨ running.phase = .phase2 ∧
          majority config ≤ running.replies.countP (fun reply => isSuccessAck system.clientTagCounter reply.2) + 1 ∧
          after = { system with
            running := none
            stagingTx := system.stagingTx ++ [⟨running.cmd, running.index⟩] }) := by
  unfold TwoPC.finishPhase at finished
  split at finished
  · cases finished
  · next running isRunning =>
    refine ⟨running, isRunning, ?_⟩
    dsimp only at finished
    split at finished
    · next enough =>
      split at finished
      · exact .inl ⟨_, finished⟩
      · next isPhase2 => exact .inr ⟨isPhase2, enough, (some.inj finished).symm⟩
    · exact .inl ⟨_, finished⟩

theorem step_finishPhase (member : config.netConfig.name ∈ config.consensusConfig.nodeList)
    (inv : Inv config system) (ordered : Ordered config system)
    (finished : system.finishPhase config = some after) : Inv config after ∧ Ordered config after := by
  obtain ⟨running, isRunning, ⟨_, sent⟩ | ⟨isPhase2, enough, rfl⟩⟩ := finishPhase_cases finished
  · have progress := inv.progress running isRunning
    refine ⟨inv.net.broadcast progress.self progress.index sent, ?_⟩
    obtain ⟨commands, -, again, isAgain, isCmd⟩ := broadcast_fields sent
    obtain ⟨previous, preceded, -, busy⟩ := ordered
    obtain ⟨isPrevious, ofVote⟩ := busy running isRunning
    refine ⟨previous, commands ▸ preceded, by simp [isAgain], fun now isNow => ?_⟩
    obtain rfl : again = now := some.inj (isAgain.symm.trans isNow)
    rw [isCmd]
    refine ⟨isPrevious, fun vote isVote => ?_⟩
    obtain ⟨isLogMeta, settled⟩ := ofVote vote isVote
    exact ⟨isLogMeta, settled.keep (keeps_broadcast sent (.inr (key_ne_raftMeta isLogMeta)))⟩
  · refine ⟨⟨⟨inv.net.notMine, inv.net.sorted, inv.net.msg_le, inv.net.ack_le⟩, fun _ isNow => (by cases isNow)⟩, ?_⟩
    obtain ⟨previous, preceded, -, busy⟩ := ordered
    obtain ⟨isPrevious, -⟩ := busy running isRunning
    refine ⟨previous, preceded, fun _ cmd isCmd => ?_, fun _ isNow => (by cases isNow)⟩
    obtain rfl : running.cmd = cmd := some.inj (isPrevious.symm.trans isCmd)
    have settled := (inv.progress running isRunning).settled member inv.net isPhase2 enough
    exact settled.keep ⟨rfl, fun _ _ holds => holds⟩

theorem isPrefixOf_finalKeyName (key) :
    (keyBytes (config.netConfig.name ++ ":")).isPrefixOf (keyBytes (finalKeyName config key)) = true := by
  rw [List.isPrefixOf_iff_prefix]
  exact ⟨keyBytes key, by simp [keyBytes, finalKeyName]⟩

theorem receiveReply_fields (received : system.receiveReply config node = some after) :
    after.running.map (·.cmd) = system.running.map (·.cmd) ∧ after.commandRx = system.commandRx ∧
      after.stagingTx = system.stagingTx ∧ ∀ key, Keeps config system after key := by
  unfold TwoPC.receiveReply at received
  split at received
  · next _ _ _ isRunning _ =>
    split at received
    · cases received
      exact ⟨by simp [isRunning], rfl, rfl, fun _ => ⟨rfl, fun _ _ holds => holds⟩⟩
    · cases received
  · cases received

inductive Effect (config : Config) (system after : TwoPC) : Event → Prop where
  | quiet {event : Event} {more : List TwoPCCommand} (quiet : Quiet config system after)
      (commands : after.commandRx = system.commandRx ++ more) (follows : ∀ last, Preceded last more)
      (stagingTx : after.stagingTx = system.stagingTx) : Effect config system after event
  | consume {event : Event} {node : String} {msg : PhaseMessage} {rest : List PhaseMessage}
      (consumes : Consumes config system after node msg rest) (commands : after.commandRx = system.commandRx)
      (stagingTx : after.stagingTx = system.stagingTx) : Effect config system after event
  | takeCommand {outcome : PutOutcome} (taken : system.takeCommand config outcome = some after) :
      Effect config system after (.takeCommand outcome)
  | receiveReply {event : Event} {node : String} (received : system.receiveReply config node = some after) :
      Effect config system after event
  | finishPhase (finished : system.finishPhase config = some after) : Effect config system after .finishPhase

theorem effect_of_step (taken : step config system event = some after) : Effect config system after event := by
  cases event with
  | vote vote action =>
    simp only [step] at taken
    split at taken
    · next isVote =>
      cases taken
      refine .quiet ⟨rfl, rfl, rfl, rfl, fun _ _ _ stored => stored, fun _ _ member => member⟩ rfl ?_ rfl
      intro last
      refine ⟨fun other isOther => (by cases isOther), fun other isOther => ?_, trivial⟩
      cases isVote.symm.trans isOther
      exact ⟨rfl, rfl⟩
    · cases taken
  | command key value =>
    cases taken
    refine .quiet ⟨rfl, rfl, rfl, rfl, fun _ _ _ stored => stored, fun _ _ member => member⟩ rfl ?_ rfl
    exact fun last => ⟨fun other isOther => (by cases isOther), trivial⟩
  | takeCommand outcome => exact .takeCommand taken
  | deliver node outcome readable =>
    cases head : system.links node with
    | nil => simp [step, head] at taken
    | cons msg rest =>
      have consumes := consumes_deliver head taken
      simp only [step, head, some.injEq] at taken
      subst taken
      exact .consume consumes rfl rfl
  | refuse node reply =>
    cases head : system.links node with
    | nil => simp [step, head] at taken
    | cons msg rest =>
      have consumes := consumes_refuse head taken
      simp only [step, head] at taken
      split at taken
      · cases taken
      · cases taken
        exact .consume consumes rfl rfl
  | loseMessage node =>
    cases head : system.links node with
    | nil => simp [step, head] at taken
    | cons msg rest =>
      simp only [step, head, some.injEq] at taken
      subst taken
      exact .consume ⟨head, rfl, rfl, rfl, fun _ => rfl, fun _ _ => rfl, fun _ _ holds => holds.1,
        fun _ _ member => .inl member⟩ rfl rfl
  | receiveReply node => exact .receiveReply taken
  | loseReply node =>
    simp only [step] at taken
    split at taken
    · cases taken
    · next _ rest isHead =>
      cases taken
      refine .quiet ⟨rfl, rfl, rfl, rfl, fun _ _ _ stored => stored, fun other reply member => ?_⟩
        (append_nil _).symm (fun _ => trivial) rfl
      dsimp only at member
      split at member
      · next same => simp [same, isHead, member]
      · exact member
  | finishPhase => exact .finishPhase taken
  | otherPut node key val =>
    simp only [step] at taken
    split at taken
    · cases taken
    · next foreign =>
      cases taken
      refine .quiet ⟨rfl, rfl, rfl, rfl, fun other own value stored => ?_, fun _ _ member => member⟩
        (append_nil _).symm (fun _ => trivial) rfl
      have differs : keyBytes (finalKeyName config own) ≠ key := by
        rintro rfl
        exact foreign (isPrefixOf_finalKeyName own)
      dsimp only
      split
      · next same => simpa [putRaw, differs, same] using stored
      · exact stored

theorem step_preserves (member : config.netConfig.name ∈ config.consensusConfig.nodeList)
    (inv : Inv config system) (ordered : Ordered config system) (hold : LocalPutsHold system event)
    (taken : step config system event = some after) : Inv config after ∧ Ordered config after := by
  cases effect_of_step taken with
  | quiet quiet commands follows =>
    exact ⟨inv.quiet quiet, ordered.keep (congrArg _ quiet.running) commands follows quiet.keeps⟩
  | consume consumes commands =>
    refine ⟨inv.consume consumes, ?_⟩
    exact ordered.keep (congrArg _ consumes.running) (commands.trans (append_nil _).symm) (fun _ => trivial)
      consumes.keeps
  | takeCommand taken => exact step_takeCommand inv ordered hold taken
  | receiveReply received =>
    obtain ⟨running, commands, -, keeps⟩ := receiveReply_fields received
    refine ⟨inv.receiveReply received, ?_⟩
    exact ordered.keep running (commands.trans (append_nil _).symm) (fun _ => trivial) keeps
  | finishPhase finished => exact step_finishPhase member inv ordered finished

structure Started (system : TwoPC) : Prop where
  commandRx : system.commandRx = []
  running : system.running = none
  links : ∀ node, system.links node = []
  replies : ∀ node, system.replies node = []

theorem Started.inv (started : Started system) : Inv config system := by
  refine ⟨⟨started.links _, fun node => ?_, fun node msg member => ?_, fun node reply member => ?_⟩, ?_⟩
  · rw [started.links]
    exact List.Pairwise.nil
  · simp [started.links] at member
  · simp [started.replies] at member
  · simp [started.running]

theorem Started.ordered (started : Started system) : Ordered config system := by
  refine ⟨none, ?_, fun _ _ isPrevious => (by cases isPrevious), by simp [started.running]⟩
  rw [started.commandRx]
  trivial

theorem inv_of_reaches {start} (member : config.netConfig.name ∈ config.consensusConfig.nodeList)
    (started : Started start) (reached : Reaches (step config) LocalPutsHold start system) :
    Inv config system ∧ Ordered config system :=
  reached.invariant (motive := fun system => Inv config system ∧ Ordered config system)
    ⟨started.inv, started.ordered⟩ fun both hold taken => step_preserves member both.1 both.2 hold taken

/-!
## Releases
-/

def Replicated (config : Config) (system : TwoPC) (key : String) (val : Bytes) : Prop :=
  majority config ≤ config.consensusConfig.nodeList.countP fun node =>
    system.stores node (keyBytes (finalKeyName config key)) = some val

instance (key : String) (val : Bytes) : Decidable (Replicated config system key val) :=
  inferInstanceAs (Decidable (_ ≤ _))

theorem Settled.replicated (settled : Settled config system key value) :
    Replicated config system key (storedValue (system.lastIndex key) value) := by
  refine Nat.le_trans settled (countP_mono_left fun node _ holds => ?_)
  exact decide_eq_true (of_decide_eq_true holds).1

theorem takeCommand_stagingTx (taken : system.takeCommand config outcome = some after) :
    after.stagingTx = system.stagingTx := by
  unfold TwoPC.takeCommand at taken
  split at taken
  · split at taken
    · cases taken
      rfl
    · exact (broadcast_fields taken).2.1
  · cases taken

theorem release_cases {release} (taken : step config system event = some after)
    (released : after.stagingTx = system.stagingTx ++ [release]) :
    ∃ running, system.running = some running ∧ running.phase = .phase2 ∧
      majority config ≤ running.replies.countP (fun reply => isSuccessAck system.clientTagCounter reply.2) + 1 ∧
      after.stores = system.stores ∧ after.localIndexCounter = system.localIndexCounter ∧
      release = ⟨running.cmd, running.index⟩ := by
  have longer : after.stagingTx ≠ system.stagingTx := by simp [released]
  cases effect_of_step taken with
  | quiet _ _ _ same => exact absurd same longer
  | consume _ _ same => exact absurd same longer
  | takeCommand taken => exact absurd (takeCommand_stagingTx taken) longer
  | receiveReply received => exact absurd (receiveReply_fields received).2.2.1 longer
  | finishPhase finished =>
    obtain ⟨running, isRunning, ⟨_, sent⟩ | ⟨isPhase2, enough, rfl⟩⟩ := finishPhase_cases finished
    · exact absurd (broadcast_fields sent).2.1 longer
    · have same := append_cancel_left released
      exact ⟨running, isRunning, isPhase2, enough, rfl, rfl, (singleton_inj.mp same).symm⟩

/-- When a continuation is released, a majority has the value of its command with
its index; when a vote is, a majority has both values of the vote. -/
theorem replicated_of_release {start : TwoPC} {event : Event} {release : Release}
    (member : config.netConfig.name ∈ config.consensusConfig.nodeList) (started : Started start)
    (reached : Reaches (step config) LocalPutsHold start system)
    (taken : step config system event = some after) (released : after.stagingTx = system.stagingTx ++ [release]) :
    Replicated config after release.cmd.key (storedValue release.index release.cmd.value) ∧
      ∀ vote, release.cmd.action.vote? = some vote →
        Replicated config after "raft_meta"
          (storedValue (after.lastIndex "raft_meta") (TwoPCCommand.raftMetaFile vote)) ∧
        Replicated config after "log_meta" (storedValue (after.lastIndex "log_meta") vote.forkDigest) := by
  obtain ⟨inv, _, -, -, busy⟩ := inv_of_reaches member started reached
  obtain ⟨running, isRunning, isPhase2, enough, stores, indices, rfl⟩ := release_cases taken released
  have progress := inv.progress running isRunning
  have replicated := (progress.settled member inv.net isPhase2 enough).replicated
  simp only [Replicated, lastIndex, stores, indices]
  constructor
  · rw [progress.index]
    exact replicated
  · intro vote isVote
    obtain ⟨isLogMeta, settled⟩ := (busy running isRunning).2 vote isVote
    refine ⟨settled.replicated, ?_⟩
    have isKey : running.cmd.key = "log_meta" := congrArg TwoPCCommand.key isLogMeta
    have isValue : running.cmd.value = vote.forkDigest := congrArg TwoPCCommand.value isLogMeta
    rw [isKey, isValue] at replicated
    exact replicated

def threeNodes : Config where
  netConfig := { name := "node1" }
  consensusConfig := { nodeList := ["node1", "node2", "node3"], livenessU := 1 }

def sampleVote : ProtoVote where
  sigArray := []
  forkDigest := [7]
  n := 1
  view := 1
  configNum := 0

def sampleAction : EngraftActionAfterFutureDone := .asFollower "node2" sampleVote

def sampleRelease : Release := ⟨.logMeta sampleVote sampleAction, 1⟩

def confirmedByNode2 : List Event := [.deliver "node2" ⟨true, .ok⟩ true, .receiveReply "node2"]

theorem replicated_sampleVote :
    ∃ system after, Reaches (step threeNodes) LocalPutsHold {} system ∧
      step threeNodes system .finishPhase = some after ∧
      after.stagingTx = system.stagingTx ++ [sampleRelease] ∧
      Replicated threeNodes after "raft_meta"
        (storedValue (after.lastIndex "raft_meta") (TwoPCCommand.raftMetaFile sampleVote)) ∧
      Replicated threeNodes after "log_meta" (storedValue (after.lastIndex "log_meta") sampleVote.forkDigest) := by
  obtain ⟨system, reached, next⟩ :
      ∃ system, Reaches (step threeNodes) LocalPutsHold {} system ∧
        (step threeNodes system .finishPhase).any (fun after =>
          decide (after.stagingTx = system.stagingTx ++ [sampleRelease])) = true :=
    exists_reaches
      ([.vote sampleVote sampleAction, .takeCommand ⟨true, .ok⟩] ++ confirmedByNode2 ++ [.finishPhase] ++
        confirmedByNode2 ++ [.finishPhase, .takeCommand ⟨true, .ok⟩] ++ confirmedByNode2 ++ [.finishPhase] ++
        confirmedByNode2)
      (by decide +kernel) (by decide +kernel)
  obtain ⟨after, taken, released⟩ := (any_eq_true _ _).mp next
  have started : Started {} := ⟨rfl, rfl, fun _ => rfl, fun _ => rfl⟩
  have member : threeNodes.netConfig.name ∈ threeNodes.consensusConfig.nodeList := by decide
  have replicated := replicated_of_release member started reached taken (of_decide_eq_true released)
  exact ⟨system, after, reached, taken, of_decide_eq_true released, replicated.2 sampleVote rfl⟩

/-- The put of the raft meta data gets no answer, so its command is given up. The
next put fails, and its result is not looked at. The vote is released with its
values at no node and at one. -/
theorem vote_without_majority :
    ∃ system after, Reaches (step threeNodes) Any {} system ∧
      step threeNodes system .finishPhase = some after ∧
      after.stagingTx = system.stagingTx ++ [sampleRelease] ∧
      (∀ node ∈ threeNodes.consensusConfig.nodeList,
        after.stores node (keyBytes (finalKeyName threeNodes "raft_meta")) = none) ∧
      ¬Replicated threeNodes after "log_meta" (storedValue 1 sampleVote.forkDigest) := by
  obtain ⟨system, reached, next⟩ :
      ∃ system, Reaches (step threeNodes) Any {} system ∧
        (step threeNodes system .finishPhase).any (fun after =>
          decide (after.stagingTx = system.stagingTx ++ [sampleRelease] ∧
            (∀ node ∈ threeNodes.consensusConfig.nodeList,
              after.stores node (keyBytes (finalKeyName threeNodes "raft_meta")) = none) ∧
            ¬Replicated threeNodes after "log_meta" (storedValue 1 sampleVote.forkDigest))) = true :=
    exists_reaches_any
      ([.vote sampleVote sampleAction, .takeCommand ⟨false, .closed⟩, .takeCommand ⟨false, .error⟩] ++
        confirmedByNode2 ++ [.finishPhase] ++ confirmedByNode2) (by decide +kernel)
  obtain ⟨after, taken, released⟩ := (any_eq_true _ _).mp next
  exact ⟨system, after, reached, taken, of_decide_eq_true released⟩

end PirateShip.TwoPC
