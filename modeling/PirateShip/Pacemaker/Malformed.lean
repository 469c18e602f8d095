import PirateShip.ForkReceiver.Malformed
import PirateShip.Pacemaker
import PirateShip.Staging.NewView
import PirateShip.Staging.Preference

/-! View-change messages that stop a node. The pacemaker reads the parent of the first
block and hands the message on as it is. The new leader takes its blocks, its numbers
and its history for verified. -/

set_option autoImplicit false

namespace PirateShip

open List Option

variable {block : HalfSerializedBlock}

def HalfSerializedBlock.HasParent (block : HalfSerializedBlock) : Prop :=
  digestLength + signatureLength ≤ block.serializedBody.length

instance (block : HalfSerializedBlock) : Decidable block.HasParent := inferInstanceAs (Decidable (_ ≤ _))

theorem isSome_getParentHash_iff :
    (getParentHashInProtoBlockSer block.serializedBody).isSome = true ↔ block.HasParent := by
  unfold getParentHashInProtoBlockSer HalfSerializedBlock.HasParent
  split <;> simp <;> omega

theorem isSome_hashProtoBlockSer_iff {primitives} :
    (hashProtoBlockSer primitives block.serializedBody).isSome = true ↔ block.HasParent := by
  unfold hashProtoBlockSer HalfSerializedBlock.HasParent
  split <;> simp <;> omega

/-!
## The pacemaker
-/

namespace Pacemaker

variable {config : Config} {store : BlockStore} {server : LogServer} {pacemaker : Pacemaker} {vc : ProtoViewChange}
  {sender : SenderType}

def Ignores (pacemaker : Pacemaker) (vc : ProtoViewChange) : Prop :=
  (vc.view < pacemaker.viewNum ∨ vc.configNum < pacemaker.configNum) ∨ vc.view ≤ pacemaker.lastNewViewedView

def NamesParent (vc : ProtoViewChange) : Prop :=
  ∀ first ∈ vc.fork.bind fun fork => fork.serializedBlocks.head?, first.HasParent

instance (vc : ProtoViewChange) : Decidable (NamesParent vc) :=
  inferInstanceAs (Decidable (∀ first ∈ vc.fork.bind fun fork => fork.serializedBlocks.head?, first.HasParent))

theorem isSome_forkParent_iff : (forkParent vc).isSome = true ↔ NamesParent vc := by
  unfold forkParent NamesParent
  cases vc.fork.bind fun fork => fork.serializedBlocks.head? with
  | none => simp
  | some first => simp [isSome_getParentHash_iff]

theorem isSome_handleViewChange_iff (responsive : server.Responsive store) :
    (pacemaker.handleViewChange config store server vc sender).isSome = true ↔
      pacemaker.Ignores vc ∨ NamesParent vc := by
  unfold handleViewChange
  split
  · next old => simp [Ignores, old]
  · next current =>
    split
    · next proposed => simp [Ignores, proposed]
    · next next =>
      have taken : ¬ pacemaker.Ignores vc := not_or.mpr ⟨current, next⟩
      rw [or_iff_right taken, ← isSome_forkParent_iff]
      cases forkParent vc with
      | none => simp
      | some parent =>
        obtain ⟨found, _, checked, hints⟩ := responsive.checkHash parent.1 parent.2
        simp only [checked, isSome_some, iff_true]
        cases found with
        | true => rfl
        | false =>
          dsimp only
          split
          · rfl
          · rw [sendNack, isSome_map, hints]

end Pacemaker

theorem CryptoService.isOk_verifyBlockSer_iff {crypto : CryptoService} {minQcLen : Nat} {ser : Bytes} :
    (∃ cached hash, crypto.verifyBlockSer minQcLen ser = some (.ok cached, hash)) ↔
      ∃ block, crypto.ValidBlock minQcLen ser block := by
  constructor
  · rintro ⟨cached, hash, answered⟩
    have readable : crypto.Readable ser := readable_of_verifyBlockSer (by rw [answered, isSome_some])
    obtain ⟨answer, hashAnswer, same, isOk, -⟩ := answers_iff_readable.mpr readable
    cases answered.symm.trans same
    exact isOk.mp rfl
  · rintro ⟨block, valid⟩
    have readable : crypto.Readable ser := readable_of_deserialize valid.decoded
    obtain ⟨answer, hashAnswer, answered, isOk, -⟩ := answers_iff_readable.mpr readable
    cases answer with
    | error text => cases isOk.mpr ⟨block, valid⟩
    | ok cached => exact ⟨cached, hashAnswer, answered⟩

/-!
## The statistics of the forks
-/

namespace Staging

variable {crypto : CryptoService} {staging : Staging} {vc : ProtoViewChange} {minQcLen : Nat} {viewNum configNum : Nat}
  {primitives : Primitives} {forks order : HashMap SenderType ProtoViewChange}
variable {stat : ForkStat}

/-- There is a fork, and all that is hashed or asked for its parent is long enough. -/
@[mk_iff]
structure Readable (vc : ProtoViewChange) : Prop where
  present : vc.fork ≠ none
  parents : ∀ fork ∈ vc.fork, ∀ block ∈ fork.serializedBlocks.tail, block.HasParent
  last : ∀ fork ∈ vc.fork, ∀ block ∈ fork.serializedBlocks.getLast?, block.HasParent

theorem isSome_vcToStat_iff : (vcToStat primitives vc).isSome = true ↔ Readable vc := by
  rw [readable_iff, vcToStat]
  cases vc.fork with
  | none => simp
  | some fork =>
    cases atEnd : fork.serializedBlocks.getLast? with
    | none =>
      have empty := getLast?_eq_none_iff.mp atEnd
      simp [empty]
    | some last =>
      have hashed : (hashProtoBlockSer primitives last.serializedBody).isSome = true ↔ last.HasParent :=
        isSome_hashProtoBlockSer_iff
      cases hash : hashProtoBlockSer primitives last.serializedBody with
      | none => simp [← hashed, hash, atEnd]
      | some lastHash =>
        have long : last.HasParent := hashed.mp (by rw [hash, isSome_some])
        simp [hash, isSome_mapM_iff, isSome_getParentHash_iff, atEnd, long]

def statsOf (primitives : Primitives) (forks : HashMap SenderType ProtoViewChange) : List (SenderType × ForkStat) :=
  forks.toPairs.filterMap fun binding => (vcToStat primitives binding.2).map fun stat => (binding.1, stat)

theorem mem_toPairs {sender} : (sender, vc) ∈ forks.toPairs ↔ forks.lookup sender = some vc := by
  rw [← mem_def, AList.mem_lookup_iff]
  simp [AList.toPairs]

theorem vcToStats_eq_some_iff {stats} : vcToStats primitives forks = some stats ↔
    (∀ sender vc, forks.lookup sender = some vc → Readable vc) ∧ statsOf primitives forks = stats := by
  unfold vcToStats
  rw [mapM_eq_some_iff]
  refine and_congr_left fun _ => ⟨fun each sender vc found => ?_, fun readable binding member => ?_⟩
  · have isSome := each (sender, vc) (mem_toPairs.mpr found)
    rw [isSome_map, isSome_vcToStat_iff] at isSome
    exact isSome
  · rw [isSome_map, isSome_vcToStat_iff]
    exact readable binding.1 binding.2 (mem_toPairs.mp member)

theorem mem_statsOf {sender} : (sender, stat) ∈ statsOf primitives forks ↔
    ∃ vc, forks.lookup sender = some vc ∧ vcToStat primitives vc = some stat := by
  simp only [statsOf, mem_filterMap, map_eq_some_iff, Prod.exists, Prod.mk.injEq, mem_toPairs]
  constructor
  · rintro ⟨sender, vc, found, stat, read, rfl, rfl⟩
    exact ⟨vc, found, read⟩
  · rintro ⟨vc, found, read⟩
    exact ⟨sender, vc, found, stat, read, rfl, rfl⟩

theorem statsOf_perm (perm : order.entries.Perm forks.entries) :
    (statsOf primitives order).Perm (statsOf primitives forks) :=
  (perm.map _).filterMap _

variable (readable : ∀ sender vc, forks.lookup sender = some vc → Readable vc)
include readable

theorem senders_statsOf : (statsOf primitives forks).map (·.1) = forks.keys := by
  unfold statsOf
  rw [map_filterMap]
  have each : ∀ binding ∈ forks.toPairs,
      ((vcToStat primitives binding.2).map fun stat => (binding.1, stat)).map (·.1) = some binding.1 := by
    intro binding member
    obtain ⟨stat, read⟩ : ∃ stat, vcToStat primitives binding.2 = some stat :=
      isSome_iff_exists.mp (isSome_vcToStat_iff.mpr (readable _ _ (mem_toPairs.mp member)))
    rw [read]
    rfl
  rw [filterMap_congr each]
  simp [AList.toPairs, AList.keys, List.keys]

theorem statsOf_ne_nil (nonempty : forks.entries ≠ []) : statsOf primitives forks ≠ [] := by
  intro empty
  have keys : (statsOf primitives forks).map (·.1) = forks.keys := senders_statsOf readable
  rw [empty] at keys
  exact nonempty (map_eq_nil_iff.mp keys.symm)

omit readable

theorem statsToValidation_isSome : (statsToValidation (statsOf primitives forks) forks).isSome = true := by
  unfold statsToValidation
  rw [isSome_mapM_iff]
  intro binding member
  obtain ⟨_, found, -⟩ := mem_statsOf.mp member
  rw [found]
  rfl

/-!
## Installing a fork
-/

/-- The fork has the last committed block, or continues from it or from a pending one. -/
inductive KeepsCommitted (primitives : Primitives) (staging : Staging)
    (blocks : List HalfSerializedBlock) : Prop where
  | uncommitted : staging.bci = 0 → KeepsCommitted primitives staging blocks
  | empty {committed : CachedBlock} : staging.currParentForPending = some committed →
      (∀ last ∈ blocks.getLast?, last.n = 0) → KeepsCommitted primitives staging blocks
  | holds {committed : CachedBlock} {first block : HalfSerializedBlock} :
      staging.currParentForPending = some committed → blocks.head? = some first → first.n ≤ staging.bci →
      block ∈ blocks → hashProtoBlockSer primitives block.serializedBody = some committed.blockHash →
      KeepsCommitted primitives staging blocks
  | follows {committed : CachedBlock} {first : HalfSerializedBlock} :
      staging.currParentForPending = some committed → blocks.head? = some first → first.n = staging.bci + 1 →
      getParentHashInProtoBlockSer first.serializedBody = some committed.blockHash →
      KeepsCommitted primitives staging blocks
  | continues {committed : CachedBlock} {first : HalfSerializedBlock} {entry : CachedBlockWithVotes} :
      staging.currParentForPending = some committed → blocks.head? = some first → staging.bci + 1 < first.n →
      entry ∈ staging.pendingBlocks → entry.n = first.n - 1 →
      getParentHashInProtoBlockSer first.serializedBody = some entry.block.blockHash →
      KeepsCommitted primitives staging blocks

/-- The blocks verify, and nothing committed is lost. -/
structure Installable (crypto : CryptoService) (minQcLen : Nat) (staging : Staging)
    (vc : ProtoViewChange) : Prop where
  valid : ∀ fork ∈ vc.fork, ∀ block ∈ fork.serializedBlocks,
    ∃ decoded, crypto.ValidBlock minQcLen block.serializedBody decoded
  keeps : ∀ fork ∈ vc.fork, KeepsCommitted crypto.primitives staging fork.serializedBlocks

theorem isSome_prepareForRebroadcast_iff {blocks} : (prepareForRebroadcast crypto blocks minQcLen).isSome = true ↔
      ∀ block ∈ blocks, ∃ decoded, crypto.ValidBlock minQcLen block.serializedBody decoded := by
  unfold prepareForRebroadcast
  rw [isSome_mapM_iff]
  refine forall₂_congr fun block _ => ?_
  rw [← CryptoService.isOk_verifyBlockSer_iff]
  constructor
  · intro accepted
    split at accepted
    · next cached hash answered => exact ⟨cached, hash, answered⟩
    · cases accepted
  · rintro ⟨cached, hash, answered⟩
    rw [answered]
    rfl

theorem mem_hashes_iff {blocks cached hash}
    (prepared : prepareForRebroadcast crypto blocks minQcLen = some cached) : hash ∈ cached.map (·.blockHash) ↔
      ∃ block ∈ blocks, hashProtoBlockSer crypto.primitives block.serializedBody = some hash := by
  obtain ⟨each, rfl⟩ := mapM_eq_some_iff.mp prepared
  simp only [List.mem_map, List.mem_filterMap]
  constructor
  · rintro ⟨cached, ⟨block, member, accepted⟩, rfl⟩
    refine ⟨block, member, ?_⟩
    split at accepted
    · next answered =>
      cases accepted
      exact (CryptoService.accepts_of_verifyBlockSer answered).hashed
    · cases accepted
  · rintro ⟨block, member, isHash⟩
    obtain ⟨cached, accepted⟩ := isSome_iff_exists.mp (each block member)
    refine ⟨cached, ⟨block, member, accepted⟩, ?_⟩
    split at accepted
    · next answered =>
      cases accepted
      exact some.inj ((CryptoService.accepts_of_verifyBlockSer answered).hashed.symm.trans isHash)
    · cases accepted

structure SentStat (primitives : Primitives) (blocks : List HalfSerializedBlock) (stat : ForkStat) : Prop where
  blockHashes : ∀ hash, hash ∈ stat.blockHashes ↔
    ∃ block ∈ blocks, hashProtoBlockSer primitives block.serializedBody = some hash
  forkLastN : stat.forkLastN = (blocks.getLast?.map (·.n)).getD 0
  firstN : stat.firstN = (blocks.head?.map (·.n)).getD 0
  firstParent : ∀ first ∈ blocks.head?, getParentHashInProtoBlockSer first.serializedBody = some stat.firstParent

theorem keepsCommitted_iff {blocks committed} (sent : SentStat primitives blocks stat) (positive : staging.bci ≠ 0)
    (parent : staging.currParentForPending = some committed) (nonempty : stat.forkLastN ≠ 0) :
    KeepsCommitted primitives staging blocks ↔ stat.firstN ≤ staging.bci ∧ committed.blockHash ∈ stat.blockHashes ∨
      stat.firstN = staging.bci + 1 ∧ committed.blockHash = stat.firstParent ∨
      staging.bci + 1 < stat.firstN ∧ ∃ entry ∈ staging.pendingBlocks,
        entry.n = stat.firstN - 1 ∧ entry.block.blockHash = stat.firstParent := by
  obtain ⟨first, atHead⟩ : ∃ first, blocks.head? = some first := by
    cases blocks with
    | nil => exact absurd sent.forkLastN nonempty
    | cons first rest => exact ⟨first, rfl⟩
  have named := sent.firstParent first atHead
  have number : stat.firstN = first.n := by rw [sent.firstN, atHead, map_some, getD_some]
  rw [number, sent.blockHashes]
  constructor
  · intro keeps
    cases keeps with
    | uncommitted none => exact absurd none positive
    | empty _ ends =>
      refine absurd ?_ nonempty
      rw [sent.forkLastN]
      cases atEnd : blocks.getLast? with
      | none => rfl
      | some last => exact ends last atEnd
    | holds isParent isHead low member hashed =>
      cases parent.symm.trans isParent
      cases atHead.symm.trans isHead
      exact .inl ⟨low, _, member, hashed⟩
    | follows isParent isHead next isNamed =>
      cases parent.symm.trans isParent
      cases atHead.symm.trans isHead
      exact .inr (.inl ⟨next, some.inj (isNamed.symm.trans named)⟩)
    | continues isParent isHead above member held isNamed =>
      cases atHead.symm.trans isHead
      exact .inr (.inr ⟨above, _, member, held, some.inj (isNamed.symm.trans named)⟩)
  · rintro (⟨low, _, member, hashed⟩ | ⟨next, same⟩ | ⟨above, entry, member, held, same⟩)
    · exact .holds parent atHead low member hashed
    · exact .follows parent atHead next (same ▸ named)
    · exact .continues parent atHead above member held (same ▸ named)

theorem isSome_checkByzCommitInvariant_iff {blocks} (sent : SentStat primitives blocks stat) :
    (checkByzCommitInvariant staging stat).isSome = true ↔ KeepsCommitted primitives staging blocks := by
  unfold checkByzCommitInvariant
  by_cases uncommitted : staging.bci = 0
  · simp only [uncommitted, ↓reduceIte, isSome_some, true_iff]
    exact .uncommitted uncommitted
  · rw [if_neg uncommitted]
    cases parent : staging.currParentForPending with
    | none =>
      simp only [isSome_none, Bool.false_eq_true, false_iff]
      intro keeps
      cases keeps <;> simp_all
    | some committed =>
      dsimp only
      by_cases empty : stat.forkLastN = 0
      · rw [if_pos empty, isSome_some, eq_self, true_iff]
        refine .empty parent fun last atEnd => ?_
        rw [sent.forkLastN, atEnd] at empty
        exact empty
      · rw [if_neg empty]
        rw [keepsCommitted_iff sent uncommitted parent empty]
        by_cases low : stat.firstN ≤ staging.bci
        · simp [low, show ¬ stat.firstN = staging.bci + 1 by omega, show ¬ staging.bci + 1 < stat.firstN by omega]
        · by_cases next : stat.firstN = staging.bci + 1
          · rw [if_neg low]
            simp [next]
          · simp [low, next, show staging.bci + 1 < stat.firstN by omega]

theorem sentStat_of_sendBlocks {sent fork} (isFork : vc.fork = some fork)
    (sends : sendBlocksToBroadcasterAndGetStats crypto staging vc = some (sent, stat)) :
    SentStat crypto.primitives fork.serializedBlocks stat := by
  unfold sendBlocksToBroadcasterAndGetStats at sends
  rw [isFork] at sends
  split at sends
  · next present _ =>
    cases present
    split at sends
    · cases sends
    · next _ prepared =>
      obtain ⟨_, isParent, same⟩ := map_eq_some_iff.mp sends
      cases same
      refine ⟨fun hash => mem_hashes_iff prepared, rfl, rfl, fun first atHead => ?_⟩
      rw [mem_def.mp atHead] at isParent
      exact isParent
  · cases sends

theorem isSome_sendBlocks_iff (threshold : byzantineLivenessThreshold crypto.config = some minQcLen) {fork}
    (isFork : vc.fork = some fork) :
    (sendBlocksToBroadcasterAndGetStats crypto staging vc).isSome = true ↔
      ∀ block ∈ fork.serializedBlocks, ∃ decoded, crypto.ValidBlock minQcLen block.serializedBody decoded := by
  rw [← isSome_prepareForRebroadcast_iff]
  simp only [sendBlocksToBroadcasterAndGetStats, isFork, threshold]
  cases prepared : prepareForRebroadcast crypto fork.serializedBlocks minQcLen with
  | none => rfl
  | some cached =>
    cases blocks : fork.serializedBlocks with
    | nil => rfl
    | cons first rest =>
      rw [blocks] at prepared
      obtain ⟨_, _, -, parent⟩ := prepareForRebroadcast_cons prepared
      simp [parent]

theorem installs_iff (threshold : byzantineLivenessThreshold crypto.config = some minQcLen)
    (present : vc.fork ≠ none) :
    (∃ sent stat, sendBlocksToBroadcasterAndGetStats crypto staging vc = some (sent, stat) ∧
        (checkByzCommitInvariant staging stat).isSome = true) ↔ Installable crypto minQcLen staging vc := by
  obtain ⟨fork, isFork⟩ := ne_none_iff_exists'.mp present
  constructor
  · rintro ⟨sent, stat, sends, checked⟩
    have valid := (isSome_sendBlocks_iff threshold isFork).mp (by rw [sends, isSome_some])
    have keeps := (isSome_checkByzCommitInvariant_iff (sentStat_of_sendBlocks isFork sends)).mp checked
    constructor
    · intro other same
      cases isFork.symm.trans same
      exact valid
    · intro other same
      cases isFork.symm.trans same
      exact keeps
  · intro installable
    obtain ⟨⟨sent, stat⟩, sends⟩ :=
      isSome_iff_exists.mp ((isSome_sendBlocks_iff threshold isFork).mpr (installable.valid fork isFork))
    exact ⟨sent, stat, sends,
      (isSome_checkByzCommitInvariant_iff (sentStat_of_sendBlocks isFork sends)).mpr (installable.keeps fork isFork)⟩

/-!
## Proposing a view
-/

def TurnsAway (crypto : CryptoService) (staging : Staging) (viewNum configNum : Nat) : Prop :=
  (viewNum ≠ staging.view ∨ configNum ≠ staging.configNum) ∨
    (staging.viewIsStable || !iAmLeader crypto.config staging) = true

theorem chosenVc_eq_some_iff : chosenVc crypto forks = some vc ↔
    (∀ sender vc, forks.lookup sender = some vc → Readable vc) ∧
      ∃ senders chosen, forkChoiceFilter crypto.config.features (statsOf crypto.primitives forks)
          (fastPathSelectionThreshold crypto.config) = some senders ∧
        senders.head? = some chosen ∧ forks.lookup chosen = some vc := by
  simp only [chosenVc, bind_eq_bind, bind_eq_some_iff, vcToStats_eq_some_iff]
  constructor
  · rintro ⟨_, ⟨readable, rfl⟩, senders, filtered, chosen, first, found⟩
    exact ⟨readable, senders, chosen, filtered, first, found⟩
  · rintro ⟨readable, senders, chosen, filtered, first, found⟩
    exact ⟨_, ⟨readable, rfl⟩, senders, filtered, chosen, first, found⟩

theorem isSome_proposeNewView_iff (threshold : byzantineLivenessThreshold crypto.config = some minQcLen)
    (taken : ¬ TurnsAway crypto staging viewNum configNum) :
    (proposeNewView crypto staging viewNum configNum forks).isSome = true ↔
      ∃ vc, chosenVc crypto forks = some vc ∧ Installable crypto minQcLen staging vc := by
  obtain ⟨current, leads⟩ := not_or.mp taken
  constructor
  · intro ran
    obtain ⟨_, ran⟩ := isSome_iff_exists.mp ran
    cases proposeNewView_decides ran with
    | turnedAway refused =>
      refine absurd ?_ taken
      rcases refused with elsewhere | stable | follower
      · exact .inl elsewhere
      · exact .inr (by simp [stable])
      · exact .inr (by simp [follower])
    | proposes vc sent stat _ retainN _ _ _ _ found picked sends check =>
      have readable := (chosenVc_eq_some_iff.mp picked).1 _ vc found
      exact ⟨vc, picked, (installs_iff threshold readable.present).mp ⟨sent, stat, sends, by rw [check, isSome_some]⟩⟩
  · rintro ⟨vc, picked, installable⟩
    obtain ⟨readable, _, chosen, filtered, first, found⟩ := chosenVc_eq_some_iff.mp picked
    obtain ⟨sent, stat, sends, checked⟩ := (installs_iff threshold (readable chosen vc found).present).mpr installable
    obtain ⟨validation, validated⟩ : ∃ validation, statsToValidation (statsOf crypto.primitives forks) forks =
        some validation := Option.isSome_iff_exists.mp statsToValidation_isSome
    have applied : applyForkChoiceRule crypto staging forks = some (sent, stat, validation) := by
      simp only [applyForkChoiceRule, vcToStats_eq_some_iff.mpr ⟨readable, rfl⟩, validated,
        filtered, first, found, sends,
        Option.bind_eq_bind, Option.bind_some, Option.pure_def]
    rw [← checkByzCommitInvariant_core stat (sendBlocks_core sends)] at checked
    obtain ⟨retainN, retained⟩ := isSome_iff_exists.mp checked
    simp only [proposeNewView, if_neg current, if_neg leads, applied, retained, isSome_some]

/-!
## Any order of the messages
-/

def certifiedForks (crypto : CryptoService) (forks : HashMap SenderType ProtoViewChange) :
    List (SenderType × ForkStat) :=
  forkChoiceFilterHighestQcView (statsOf crypto.primitives forks)

/-- What the leader takes for granted of the messages for its view. -/
structure Sound (crypto : CryptoService) (minQcLen : Nat) (staging : Staging)
    (forks : HashMap SenderType ProtoViewChange) :
    Prop where
  nonempty : forks.entries ≠ []
  readable : ∀ sender vc, forks.lookup sender = some vc → Readable vc
  /-- If enough forks share the highest certificate, the numbers of no fork go beyond its
  blocks, and some block may have been committed on the fast path. -/
  fastPath : EnoughShare crypto.config.features (fastPathSelectionThreshold crypto.config)
    (certifiedForks crypto forks) →
    Covered (certifiedForks crypto forks) ∧
      ∃ n hash, Backed (certifiedForks crypto forks) (fastPathSelectionThreshold crypto.config) n hash
  installable : ∀ sender vc stat, forks.lookup sender = some vc →
    Preferred crypto.config.features (fastPathSelectionThreshold crypto.config) (statsOf crypto.primitives forks)
      (sender, stat) → Installable crypto minQcLen staging vc

theorem fastPathSelectionThreshold_pos (config) : 0 < fastPathSelectionThreshold config := Nat.succ_pos _

theorem head_of_sublist {α : Type} {first : α} {rest kept : List α} (unique : (first :: rest).Nodup)
    (sub : kept.Sublist (first :: rest)) (member : first ∈ kept) : kept.head? = some first := by
  cases sub with
  | cons _ later => exact absurd (later.subset member) (nodup_cons.mp unique).1
  | cons_cons _ later => rfl

theorem exists_order_first {sender} (found : forks.lookup sender = some vc) :
    ∃ order : HashMap SenderType ProtoViewChange, order.entries.Perm forks.entries ∧
      ∃ rest, order.keys = sender :: rest := by
  obtain ⟨before, after, split⟩ := append_of_mem (AList.mem_lookup_iff.mp found)
  have perm : (⟨sender, vc⟩ :: (before ++ after)).Perm forks.entries := split ▸ perm_middle.symm
  exact ⟨⟨_, (perm_nodupKeys perm).mpr forks.nodupKeys⟩, perm, _, rfl⟩

theorem readable_perm (perm : order.entries.Perm forks.entries)
    (readable : ∀ sender vc, forks.lookup sender = some vc → Readable vc) :
    ∀ sender vc, order.lookup sender = some vc → Readable vc := by
  intro sender vc found
  rw [AList.perm_lookup perm] at found
  exact readable sender vc found

theorem exists_chosen {sender} (readable : ∀ sender vc, forks.lookup sender = some vc → Readable vc)
    (found : forks.lookup sender = some vc)
    (preferred : Preferred crypto.config.features (fastPathSelectionThreshold crypto.config)
      (statsOf crypto.primitives forks) (sender, stat))
    (finishes : ∀ order : HashMap SenderType ProtoViewChange, order.entries.Perm forks.entries →
      (chosenVc crypto order).isSome = true) :
    ∃ order : HashMap SenderType ProtoViewChange, order.entries.Perm forks.entries ∧
      chosenVc crypto order = some vc := by
  obtain ⟨order, perm, _, keys⟩ := exists_order_first found
  refine ⟨order, perm, chosenVc_eq_some_iff.mpr ⟨readable_perm perm readable, ?_⟩⟩
  obtain ⟨_, picked⟩ := isSome_iff_exists.mp (finishes order perm)
  obtain ⟨-, senders, -, filtered, -, -⟩ := chosenVc_eq_some_iff.mp picked
  refine ⟨senders, sender, filtered, ?_, (AList.perm_lookup perm).trans found⟩
  have isSender : sender ∈ senders := (mem_forkChoiceFilter (fastPathSelectionThreshold_pos _) filtered).mpr
      ⟨stat, (preferred_perm (statsOf_perm perm)).mpr preferred⟩
  have sub := forkChoiceFilter_sublist filtered
  rw [senders_statsOf (readable_perm perm readable), keys] at sub
  exact head_of_sublist (keys ▸ order.keys_nodup) sub isSender

theorem sound_iff : Sound crypto minQcLen staging forks ↔
    ∀ order : HashMap SenderType ProtoViewChange, order.entries.Perm forks.entries →
      ∃ vc, chosenVc crypto order = some vc ∧ Installable crypto minQcLen staging vc := by
  have positive := fastPathSelectionThreshold_pos crypto.config
  constructor
  · intro sound order perm
    have stats : (statsOf crypto.primitives order).Perm (statsOf crypto.primitives forks) := statsOf_perm perm
    have certified := certified_perm stats
    have readable := readable_perm perm sound.readable
    obtain ⟨senders, filtered⟩ : ∃ senders, forkChoiceFilter crypto.config.features (statsOf crypto.primitives order)
        (fastPathSelectionThreshold crypto.config) = some senders := by
      refine isSome_iff_exists.mp ((isSome_forkChoiceFilter_iff positive).mpr fun enough => ?_)
      exact (covered_perm certified).mpr (sound.fastPath ((enoughShare_perm certified).mp enough)).1
    have nonempty : statsOf crypto.primitives order ≠ [] :=
      statsOf_ne_nil readable fun empty => sound.nonempty (nil_perm.mp (empty ▸ perm))
    have some : senders ≠ [] := (forkChoiceFilter_ne_nil_iff positive nonempty filtered).mpr fun enough => by
      obtain ⟨n, hash, backed⟩ := (sound.fastPath ((enoughShare_perm certified).mp enough)).2
      exact ⟨n, hash, (backed_perm certified).mpr backed⟩
    obtain ⟨chosen, _, rfl⟩ := exists_cons_of_ne_nil some
    obtain ⟨stat, preferred⟩ := (mem_forkChoiceFilter positive filtered).mp mem_cons_self
    have preferred := (preferred_perm stats).mp preferred
    obtain ⟨vc, found, -⟩ : ∃ vc, forks.lookup chosen = .some vc ∧ vcToStat crypto.primitives vc = .some stat :=
      mem_statsOf.mp (filter_sublist.subset preferred.1.1.1)
    refine ⟨vc, chosenVc_eq_some_iff.mpr ⟨readable, _, chosen, filtered, rfl, ?_⟩,
      sound.installable _ _ _ found preferred⟩
    exact (AList.perm_lookup perm).trans found
  · intro installs
    obtain ⟨vc, picked, -⟩ := installs forks (.refl _)
    obtain ⟨readable, senders, chosen, filtered, first, found⟩ := chosenVc_eq_some_iff.mp picked
    have some : senders ≠ [] := ne_nil_of_mem (mem_of_head? first)
    have nonempty : statsOf crypto.primitives forks ≠ [] := by
      rintro empty
      have sub := forkChoiceFilter_sublist filtered
      rw [empty] at sub
      exact some (sublist_nil.mp sub)
    refine ⟨?_, readable, fun enough => ⟨?_, ?_⟩, fun sender vc stat found preferred => ?_⟩
    · exact ne_nil_of_mem (AList.mem_lookup_iff.mp found)
    · exact (isSome_forkChoiceFilter_iff positive).mp (by rw [filtered, isSome_some]) enough
    · exact (forkChoiceFilter_ne_nil_iff positive nonempty filtered).mp some enough
    · obtain ⟨order, perm, isChosen⟩ := exists_chosen readable found preferred fun order perm => by
        obtain ⟨vc, picked, -⟩ := installs order perm
        rw [picked, isSome_some]
      obtain ⟨_, picked, installable⟩ := installs order perm
      cases isChosen.symm.trans picked
      exact installable

/-- The pacemaker takes every message, and the leader gets through with them in
whatever order the map returns them. -/
def Withstands (crypto : CryptoService) (store : BlockStore) (server : LogServer)
    (pacemaker : Pacemaker) (staging : Staging)
    (viewNum configNum : Nat) (forks : HashMap SenderType ProtoViewChange) : Prop :=
  (∀ sender vc, forks.lookup sender = some vc →
    (pacemaker.handleViewChange crypto.config store server vc sender).isSome = true) ∧
  ∀ order : HashMap SenderType ProtoViewChange, order.entries.Perm forks.entries →
    (proposeNewView crypto staging viewNum configNum order).isSome = true

/-- View-change messages do not stop a node exactly if the pacemaker can read the parents
that it asks for, and the leader turns the messages away or finds them sound. -/
theorem withstands_iff {store : BlockStore} {server : LogServer} {pacemaker : Pacemaker}
    (responsive : server.Responsive store) (threshold : byzantineLivenessThreshold crypto.config = some minQcLen) :
    Withstands crypto store server pacemaker staging viewNum configNum forks ↔
      (∀ sender vc, forks.lookup sender = some vc → pacemaker.Ignores vc ∨ Pacemaker.NamesParent vc) ∧
      (TurnsAway crypto staging viewNum configNum ∨ Sound crypto minQcLen staging forks) := by
  refine and_congr (forall₃_congr fun sender vc _ => Pacemaker.isSome_handleViewChange_iff responsive) ?_
  by_cases away : TurnsAway crypto staging viewNum configNum
  · refine iff_of_true (fun order _ => ?_) (.inl away)
    unfold proposeNewView
    rcases away with elsewhere | refused
    · rw [if_pos elsewhere, isSome_some]
    · split <;> rfl
  · rw [or_iff_right away, sound_iff]
    exact forall₂_congr fun order _ => isSome_proposeNewView_iff threshold away

def messages (first second : ProtoViewChange) : HashMap SenderType ProtoViewChange :=
  ((∅ : HashMap SenderType ProtoViewChange).insert (.auth "node2" 0) first).insert (.auth "node3" 0) second

theorem lookup_messages {sender message}
    (found : (messages message message).lookup sender = some vc) : vc = message := by
  unfold messages at found
  by_cases third : sender = .auth "node3" 0
  · rw [third] at found
    exact (some.inj found).symm
  · rw [AList.lookup_insert_ne third] at found
    by_cases second : sender = .auth "node2" 0
    · rw [second] at found
      exact (some.inj found).symm
    · rw [AList.lookup_insert_ne second] at found
      cases found

theorem withstands_of_same_forks :
    ForkReceiver.holdsFirst.Responsive (fun _ => none) ∧ byzantineLivenessThreshold newLeader.config = some 2 ∧
      Withstands newLeader (fun _ => none) ForkReceiver.holdsFirst {} currentLeader 2 1
        (messages (forkMessage [chainBlock 0, chainBlock 1]) (forkMessage [chainBlock 0, chainBlock 1])) := by
  have responsive := ForkReceiver.responsive_holdsFirst
  have threshold : byzantineLivenessThreshold newLeader.config = some 2 := by decide +kernel
  refine ⟨responsive, threshold, (withstands_iff responsive threshold).mpr ⟨?_, .inr ⟨?_, ?_, ?_, ?_⟩⟩⟩
  · intro sender vc found
    cases lookup_messages found
    exact .inr (by decide +kernel)
  · decide +kernel
  · intro sender vc found
    cases lookup_messages found
    exact ⟨nofun, by decide +kernel, by decide +kernel⟩
  · exact fun enough => absurd enough.2 (by decide +kernel)
  · intro sender vc stat found _
    cases lookup_messages found
    refine ⟨fun fork isFork => ?_, fun fork isFork => ?_⟩
    · cases isFork
      exact isSome_prepareForRebroadcast_iff.mp (by decide +kernel)
    · cases isFork
      exact .holds rfl rfl (Nat.le_refl 1) mem_cons_self (by decide +kernel)

def certifiedFork (blocks : List HalfSerializedBlock) : ProtoViewChange :=
  { forkMessage [] with fork := some ⟨blocks⟩, forkLastQc := some certified }

def header (i : Nat) : HalfSerializedBlock := (chainBlock i).toHalfSerialized

/-- No fork; a body without a parent hash; a last number beyond the blocks; forks that
share a certificate but overlap only in a last block; a block with a wrong signature; and
a block at the number of a committed one. -/
theorem not_withstands_malformed :
    ¬ Withstands newLeader (fun _ => none) ForkReceiver.holdsFirst {} currentLeader 2 1
        (messages (forkMessage [chainBlock 0]) { forkMessage [] with fork := none }) ∧
    ¬ Withstands newLeader (fun _ => none) ForkReceiver.holdsFirst {} currentLeader 2 1
        (messages (forkMessage [chainBlock 0]) (certifiedFork [{ header 0 with serializedBody := [] }])) ∧
    ¬ Withstands newLeader (fun _ => none) ForkReceiver.holdsFirst {} currentLeader 2 1
        (messages (certifiedFork [header 0, header 1, header 2])
          (certifiedFork [header 0, { header 1 with n := 9 }])) ∧
    ¬ Withstands newLeader (fun _ => none) ForkReceiver.holdsFirst {} currentLeader 2 1
        (messages (certifiedFork [header 0, header 1, header 2]) (certifiedFork [header 2])) ∧
    ¬ Withstands newLeader (fun _ => none) ForkReceiver.holdsFirst {} currentLeader 2 1
        (messages (forkMessage [chainBlock 0])
          (certifiedFork [{ header 0 with
            serializedBody := List.replicate signatureLength 1 ++ defaultHash ++ [1, 1, 0, 1] }])) ∧
    ¬ Withstands newLeader (fun _ => none) ForkReceiver.holdsFirst {} currentLeader 2 1
        (messages (forkMessage [chainBlock 0]) (forkMessage [tinyBlock 1 2 false defaultHash])) := by
  refine ⟨?_, ?_, ?_, ?_, ?_, ?_⟩
  · exact fun withstands => absurd (withstands.2 _ (.refl _)) (by decide +kernel)
  · exact fun withstands => absurd (withstands.1 (.auth "node3" 0) _ rfl) (by decide +kernel)
  · exact fun withstands => absurd (withstands.2 _ (.refl _)) (by decide +kernel)
  · exact fun withstands => absurd (withstands.2 _ (.refl _)) (by decide +kernel)
  · exact fun withstands => absurd (withstands.2 _ (.refl _)) (by decide +kernel)
  · exact fun withstands => absurd (withstands.2 _ (.refl _)) (by decide +kernel)

end Staging

end PirateShip
