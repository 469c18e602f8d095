import PirateShip.ForkReceiver.Multipart
import PirateShip.ForkReceiver.Structure
import PirateShip.Lib.MapM

/-! Messages that stop a node. Lengths are checked where a block is decoded, but other
functions slice or unwrap the same bytes before, and the decoder itself unwraps the
protobuf part. -/

set_option autoImplicit false

namespace PirateShip

open List Option

/-!
## `VerifyBlockSer`
-/

namespace CryptoService

variable {service : CryptoService} {minQcLen : Nat} {ser : Bytes}
variable {block : ProtoBlock}

/-- Room for signature and parent hash, and a body that is a protobuf message. -/
def Readable (service : CryptoService) (ser : Bytes) : Prop :=
  digestLength + signatureLength ≤ ser.length ∧
    (service.codec.decodeBlock (ser.drop (digestLength + signatureLength))).isSome = true

instance (service : CryptoService) (ser : Bytes) : Decidable (service.Readable ser) :=
  inferInstanceAs (Decidable (_ ∧ _))

/-- A signature is the leader's, and only a signed block has certificates, which all verify. -/
structure ValidBlock (service : CryptoService) (minQcLen : Nat) (ser : Bytes) (block : ProtoBlock) : Prop where
  decoded : deserializeProtoBlock service.codec ser = some (.ok block)
  signed : ∀ sig, block.sig = some (.proposerSig sig) →
    service.verify (service.primitives.sha512 (ser.drop signatureLength)) (service.config.getLeaderForView block.view)
        sig = true ∧
      ∀ qc ∈ block.qc, verifyQc service.primitives service.keystore qc minQcLen = true
  unsigned : block.sig = some .noSig → block.qc = []

/-- Both channels are answered, with `Ok` exactly if the block is valid. -/
def Answers (service : CryptoService) (minQcLen : Nat) (ser : Bytes) : Prop :=
  ∃ answer hashAnswer, service.verifyBlockSer minQcLen ser = some (answer, hashAnswer) ∧
    (answer.isOk = true ↔ ∃ block, service.ValidBlock minQcLen ser block) ∧
    (hashAnswer.isOk = true ↔ ∃ block, service.ValidBlock minQcLen ser block)

theorem readable_of_deserialize (decoded : deserializeProtoBlock service.codec ser = some (.ok block)) :
    service.Readable ser := by
  unfold deserializeProtoBlock at decoded
  split at decoded
  · cases decoded
  · next long =>
    refine ⟨Nat.le_of_not_lt long, ?_⟩
    split at decoded
    · cases decoded
    · next found => rw [found, isSome_some]

theorem readable_of_verifyBlockSer (answered : (service.verifyBlockSer minQcLen ser).isSome = true) :
    service.Readable ser := by
  unfold verifyBlockSer at answered
  split at answered
  · cases answered
  · next decoded deserialized =>
    cases decoded with
    | ok block => exact readable_of_deserialize deserialized
    | error text =>
      -- Too short to be decoded, and so to be hashed.
      unfold deserializeProtoBlock at deserialized
      split at deserialized
      · next short => simp [hashProtoBlockSer, short] at answered
      · split at deserialized <;> cases deserialized

theorem Readable.deserialize (readable : service.Readable ser) :
    ∃ block, deserializeProtoBlock service.codec ser = some (.ok block) ∧
      (block.sig = some .noSig ∨ block.sig = some (.proposerSig (ser.take signatureLength))) := by
  obtain ⟨long, decodes⟩ := readable
  obtain ⟨block, decoded⟩ := isSome_iff_exists.mp decodes
  unfold deserializeProtoBlock
  rw [if_neg (Nat.not_lt.mpr long), decoded]
  refine ⟨_, rfl, ?_⟩
  split
  · exact .inl rfl
  · exact .inr rfl

theorem blockFault_eq_none_iff (decoded : deserializeProtoBlock service.codec ser = some (.ok block))
    (long : signatureLength ≤ ser.length)
    (sig : block.sig = some .noSig ∨ block.sig = some (.proposerSig (ser.take signatureLength))) :
    service.blockFault minQcLen ser block = none ↔ service.ValidBlock minQcLen ser block := by
  have length : (ser.take signatureLength).length = signatureLength := by
    rw [length_take, Nat.min_eq_left long]
  unfold blockFault
  rcases sig with unsigned | signed
  · rw [unsigned]
    constructor
    · intro faultless
      refine ⟨decoded, fun sig found => ?_, fun _ => ?_⟩
      · cases unsigned.symm.trans found
      · by_contra some
        simp [length_pos_iff.mpr some] at faultless
    · intro valid
      simp [valid.unsigned unsigned]
  · rw [signed]
    simp only [length, ne_eq, not_true_eq_false, ↓reduceIte]
    constructor
    · intro faultless
      split at faultless
      · cases faultless
      · next verified =>
        split at faultless
        · cases faultless
        · next certified =>
          refine ⟨decoded, fun sig found => ?_, fun found => ?_⟩
          · cases signed.symm.trans found
            simp only [Bool.not_eq_true', Bool.not_eq_false, List.all_eq_true] at verified certified
            exact ⟨verified, certified⟩
          · cases signed.symm.trans found
    · intro valid
      obtain ⟨verified, certified⟩ := valid.signed _ signed
      have all : (block.qc.all fun qc => verifyQc service.primitives service.keystore qc minQcLen) = true :=
        all_eq_true.mpr certified
      simp [verified, all]

theorem answers_iff_readable : service.Answers minQcLen ser ↔ service.Readable ser := by
  constructor
  · rintro ⟨_, _, answered, -⟩
    exact readable_of_verifyBlockSer (by rw [answered, isSome_some])
  · intro readable
    obtain ⟨block, decoded, sig⟩ := readable.deserialize
    have long := readable.1
    obtain ⟨hash, hashed⟩ : ∃ hash, hashProtoBlockSer service.primitives ser = some hash :=
      ⟨_, if_neg (Nat.not_lt.mpr long)⟩
    have faultless : service.blockFault minQcLen ser block = none ↔ service.ValidBlock minQcLen ser block :=
      blockFault_eq_none_iff decoded (by omega) sig
    have only : (∃ block, service.ValidBlock minQcLen ser block) ↔ service.ValidBlock minQcLen ser block := by
      refine ⟨fun ⟨other, valid⟩ => ?_, fun valid => ⟨block, valid⟩⟩
      cases decoded.symm.trans valid.decoded
      exact valid
    unfold Answers
    rw [only]
    cases fault : service.blockFault minQcLen ser block with
    | none =>
      have valid := faultless.mp fault
      have answered : service.verifyBlockSer minQcLen ser =
          some (.ok { block, blockSer := ser, blockHash := hash }, .ok hash) := by
        simp [verifyBlockSer, decoded, hashed, fault]
      exact ⟨_, _, answered, iff_of_true rfl valid, iff_of_true rfl valid⟩
    | some text =>
      have invalid : ¬ service.ValidBlock minQcLen ser block := fun valid => by
        cases fault.symm.trans (faultless.mpr valid)
      have answered : service.verifyBlockSer minQcLen ser = some (.error text, .error text) := by
        simp [verifyBlockSer, decoded, hashed, fault]
      exact ⟨_, _, answered, iff_of_false Bool.false_ne_true invalid, iff_of_false Bool.false_ne_true invalid⟩

end CryptoService

/-!
## The log server
-/

namespace LogServer

variable {store : BlockStore} {server : LogServer}

structure Responsive (store : BlockStore) (server : LogServer) : Prop where
  checkHash : ∀ n hash, ∃ found answered, server.checkHash store n hash = some (found, answered) ∧
    ∀ lastNeededN, (answered.getHints store lastNeededN).isSome = true
  getHints : ∀ lastNeededN, (server.getHints store lastNeededN).isSome = true

theorem getBlock_of_first (store) (first : ∀ block ∈ server.log.head?, block.block.n ≤ 1) (n) :
    ∃ found, server.getBlock store n = some (found, server) := by
  unfold getBlock
  split
  · next head _ atHead _ =>
    have := first head atHead
    split
    · exact ⟨_, rfl⟩
    · rw [if_neg (by omega)]
      exact ⟨_, rfl⟩
  · exact ⟨_, rfl⟩

theorem hintsFrom_of_first (store) (first : ∀ block ∈ server.log.head?, block.block.n ≤ 1)
    (lastN fuel currN currJump used) :
    ∃ hints, hintsFrom store lastN fuel server currN currJump used = some (hints, server) := by
  induction fuel generalizing currN currJump used with
  | zero => exact ⟨[], rfl⟩
  | succ fuel ih =>
    unfold hintsFrom
    split
    · exact ⟨[], rfl⟩
    · obtain ⟨found, answered⟩ := getBlock_of_first store first currN
      rw [answered]
      cases found with
      | none => exact ⟨[], rfl⟩
      | some block =>
        dsimp only
        obtain ⟨hints, later⟩ :=
          ih (currN + currJump) (if 10 ≤ used + 1 then (currJump * 10, 0) else (currJump, used + 1)).1
          (if 10 ≤ used + 1 then (currJump * 10, 0) else (currJump, used + 1)).2
        rw [later]
        exact ⟨_, rfl⟩

theorem responsive_of_first (first : ∀ block ∈ server.log.head?, block.block.n ≤ 1) : Responsive store server := by
  have hints (lastNeededN : Nat) : (server.getHints store lastNeededN).isSome = true := by
    obtain ⟨hints, found⟩ := hintsFrom_of_first store first server.lastN server.lastN
      (if lastNeededN = 0 then 1 else lastNeededN) 1000 0
    simp only [getHints, found]
    split
    · rfl
    · next nonempty =>
      cases atEnd : server.log.getLast? with
      | none => simp [lastN, atEnd] at nonempty
      | some last =>
        have number : server.lastN = last.block.n := by simp [lastN, atEnd]
        obtain ⟨head, atHead⟩ : ∃ head, server.log.head? = some head := by
          cases log : server.log with
          | nil => simp [log] at atEnd
          | cons head rest => exact ⟨head, rfl⟩
        have := first head atHead
        have held : (server.log.find? fun block => block.block.n == server.lastN).isSome = true :=
          find?_isSome.mpr ⟨last, mem_of_getLast? atEnd, by simp [number]⟩
        obtain ⟨block, found⟩ := isSome_iff_exists.mp held
        have answered : server.getBlock store server.lastN = .some (.some block, server) := by
          unfold getBlock
          rw [atHead, atEnd]
          dsimp only
          rw [if_neg (by omega), if_neg (by omega), found]
        rw [answered]
        rfl
  refine ⟨fun n hash => ?_, hints⟩
  unfold checkHash
  split
  · exact ⟨_, server, rfl, hints⟩
  · obtain ⟨found, answered⟩ := getBlock_of_first store first n
    exact ⟨_, server, by rw [answered]; rfl, hints⟩

end LogServer

/-!
## The fork receiver
-/

namespace ForkReceiver

variable {crypto : CryptoService} {store : BlockStore} {server answered : LogServer} {receiver after : ForkReceiver}
  {ae : ProtoAppendEntries} {sender : String}

def blocksOf (ae : ProtoAppendEntries) : List HalfSerializedBlock := (ae.fork.map (·.serializedBlocks)).getD []

/-- `process_fork` returns, and every body of the message is answered by the crypto service. -/
def Survives (crypto : CryptoService) (store : BlockStore) (server : LogServer) (receiver : ForkReceiver)
    (ae : ProtoAppendEntries) (sender : String) : Prop :=
  (receiver.processFork crypto store server ae sender).isSome = true ∧
    ∀ block ∈ blocksOf ae, ∀ minQcLen, crypto.Answers minQcLen block.serializedBody

def TurnedAway (crypto : CryptoService) (receiver : ForkReceiver) (ae : ProtoAppendEntries)
    (sender : String) : Prop :=
  (ae.view < receiver.view ∨ ae.configNum < receiver.configNum) ∨
    ae.configNum = receiver.configNum ∧ crypto.config.getLeaderForView ae.view ≠ sender

/-- The parent of the first block is known: it was forwarded last, or the log server has it. -/
def KnowsParent (store : BlockStore) (server : LogServer) (receiver : ForkReceiver) (fork : ProtoFork) : Prop :=
  ∀ first ∈ fork.serializedBlocks.head?, ∀ parent ∈ getParentHashInProtoBlockSer first.serializedBody,
    receiver.lastAeBlockHash = some parent ∨
      ∃ answered, server.checkHash store (wrappingPred first.n) parent = some (true, answered)

/-- Views rise with unstable blocks only, up to the view of the message. -/
def ReachesView (receiver : ForkReceiver) (ae : ProtoAppendEntries) (fork : ProtoFork) : Prop :=
  ∃ testView ∈ viewsChecked receiver.view fork.serializedBlocks, ae.view ≤ testView

/-- What the stages take for granted of a message that is not turned away. -/
structure WellFormed (store : BlockStore) (server : LogServer) (receiver : ForkReceiver)
    (ae : ProtoAppendEntries) : Prop where
  present : ae.fork ≠ none
  inView : blocksOf ae = [] → ae.view ≤ receiver.view
  unblocked : ∀ fork ∈ ae.fork, KnowsParent store server receiver fork → ReachesView receiver ae fork →
    Parts.InParts receiver ae → receiver.multipartBuffer = []

theorem first_of_splitParts {configNum part first blocks rest}
    (cut : splitParts configNum part blocks = some (first :: rest)) :
    first ≠ [] ∧ first ⊆ part ++ blocks := by
  induction blocks generalizing configNum part with
  | nil =>
    unfold splitParts at cut
    split at cut
    · cases cut
    · next nonempty =>
      cases cut
      exact ⟨nonempty, subset_append_left _ _⟩
  | cons block blocks ih =>
    unfold splitParts at cut
    split at cut
    · have later := ih cut
      rwa [append_assoc, singleton_append] at later
    · split at cut
      · cases cut
      · obtain ⟨_, -, same⟩ := map_eq_some_iff.mp cut
        cases same
        refine ⟨by simp, fun other member => ?_⟩
        rw [mem_append, mem_singleton] at member
        rcases member with early | rfl
        · exact mem_append_left _ early
        · exact mem_append_right _ mem_cons_self

theorem isSome_forwardPart {part} (nonempty : part ≠ [])
    (readable : ∀ block ∈ part, crypto.Readable block.serializedBody) (remainingParts aeStats) :
    (forwardPart crypto receiver part remainingParts aeStats).isSome = true := by
  have verified : (part.mapM fun block => crypto.verifyBlockSer (byzantineLivenessThreshold crypto.config)
      block.serializedBody).isSome = true := by
    refine isSome_mapM_iff.mpr fun block member => ?_
    obtain ⟨_, _, answered, -⟩ := CryptoService.answers_iff_readable.mpr (readable block member)
    rw [answered, isSome_some]
  simp only [forwardPart, if_neg nonempty, prepareFork, isSome_map, verified]

theorem isSome_forwardFork_iff {blocks} (readable : ∀ block ∈ blocks, crypto.Readable block.serializedBody) :
    (forwardFork crypto receiver ae sender blocks).isSome = true ↔
      ((∃ parts ∈ splitParts receiver.configNum [] blocks, 1 < parts.length) → receiver.multipartBuffer = []) := by
  unfold forwardFork
  dsimp only
  cases cut : splitParts receiver.configNum [] blocks with
  | none => simp
  | some parts =>
    cases parts with
    | nil => simp
    | cons first rest =>
      obtain ⟨nonempty, inside⟩ := first_of_splitParts cut
      obtain ⟨forwarded, sent⟩ : ∃ forwarded, forwardPart crypto { receiver with waitingOnNackReply := false } first
          rest.length (statsOf ae sender) = some forwarded :=
        isSome_iff_exists.mp (isSome_forwardPart nonempty (fun block member => readable block (inside member)) _ _)
      have buffer : forwarded.multipartBuffer = receiver.multipartBuffer := by
        obtain ⟨_, _, -, rfl⟩ := forwardPart_spec sent
        rfl
      dsimp only
      rw [sent, bind_some, buffer]
      cases rest with
      | nil => simp
      | cons second others => by_cases empty : receiver.multipartBuffer = [] <;> simp

theorem isSome_sendNack (hints : ∀ lastNeededN, (server.getHints store lastNeededN).isSome = true) {fork}
    (isFork : ae.fork = some fork) :
    (receiver.sendNack crypto store server sender ae).isSome = true ↔ fork.serializedBlocks ≠ [] := by
  simp only [sendNack, isFork]
  cases blocks : fork.serializedBlocks with
  | nil => simp
  | cons first rest => simp [hints]

theorem ensureCommonPrefix_of_responsive (receiver) (responsive : server.Responsive store) {fork}
    (isFork : ae.fork = some fork)
    (readable : ∀ block ∈ fork.serializedBlocks, crypto.Readable block.serializedBody) :
    ∃ common answered, receiver.ensureCommonPrefix store server ae = some (common, answered) ∧
      (∀ lastNeededN, (answered.getHints store lastNeededN).isSome = true) ∧
      (common = true ↔ KnowsParent store server receiver fork) := by
  cases blocks : fork.serializedBlocks with
  | nil =>
    exact ⟨true, server, by simp [ensureCommonPrefix, isFork, blocks], responsive.getHints,
      by simp [KnowsParent, blocks]⟩
  | cons first rest =>
    have long := (readable first (blocks ▸ mem_cons_self)).1
    obtain ⟨parent, isParent⟩ : ∃ parent, getParentHashInProtoBlockSer first.serializedBody = some parent :=
      ⟨_, if_neg (Nat.not_lt.mpr long)⟩
    have knows : KnowsParent store server receiver fork ↔ receiver.lastAeBlockHash = some parent ∨
        ∃ answered, server.checkHash store (wrappingPred first.n) parent = some (true, answered) := by
      simp [KnowsParent, blocks, isParent]
    by_cases same : receiver.lastAeBlockHash = some parent
    · exact ⟨true, server, by simp [ensureCommonPrefix, isFork, blocks, isParent, same], responsive.getHints,
        by simp [knows, same]⟩
    · obtain ⟨found, answered, checked, hints⟩ := responsive.checkHash (wrappingPred first.n) parent
      exact ⟨found, answered, by simp [ensureCommonPrefix, isFork, blocks, isParent, same, checked], hints,
        by simp [knows, same, checked]⟩

theorem wellFormed_iff {fork} (isFork : ae.fork = some fork) : WellFormed store server receiver ae ↔
    (fork.serializedBlocks = [] → ae.view ≤ receiver.view) ∧
      (KnowsParent store server receiver fork → ReachesView receiver ae fork →
        (∃ parts ∈ splitParts receiver.configNum [] fork.serializedBlocks, 1 < parts.length) →
        receiver.multipartBuffer = []) := by
  have blocks : blocksOf ae = fork.serializedBlocks := by simp [blocksOf, isFork]
  have inParts : Parts.InParts receiver ae ↔
      ∃ parts ∈ splitParts receiver.configNum [] fork.serializedBlocks, 1 < parts.length := by
    simp [Parts.InParts, isFork]
  constructor
  · intro wellFormed
    exact ⟨fun empty => wellFormed.inView (blocks.trans empty),
      fun knows reaches several => wellFormed.unblocked fork isFork knows reaches (inParts.mpr several)⟩
  · rintro ⟨inView, unblocked⟩
    refine ⟨by simp [isFork], fun empty => inView (blocks.symm.trans empty),
      fun other found knows reaches several => ?_⟩
    cases isFork.symm.trans found
    exact unblocked knows reaches (inParts.mp several)

theorem isSome_processFork_iff (responsive : server.Responsive store)
    (readable : ∀ block ∈ blocksOf ae, crypto.Readable block.serializedBody) :
    (receiver.processFork crypto store server ae sender).isSome = true ↔
      TurnedAway crypto receiver ae sender ∨ WellFormed store server receiver ae := by
  unfold processFork
  split
  · next old => simp [TurnedAway, old]
  · next current =>
    split
    · next other => simp [TurnedAway, other]
    · next leader =>
      have taken : ¬ TurnedAway crypto receiver ae sender := not_or.mpr ⟨current, leader⟩
      rw [or_iff_right taken]
      cases isFork : ae.fork with
      | none =>
        have stops : receiver.ensureCommonPrefix store server ae = none := by simp [ensureCommonPrefix, isFork]
        rw [stops]
        exact iff_of_false Bool.false_ne_true fun wellFormed => wellFormed.present isFork
      | some fork =>
        have blocks : blocksOf ae = fork.serializedBlocks := by simp [blocksOf, isFork]
        rw [blocks] at readable
        obtain ⟨common, _, checked, hints, knows⟩ :=
          ensureCommonPrefix_of_responsive receiver responsive isFork readable
        rw [checked, wellFormed_iff isFork, ← knows]
        cases common with
        | false =>
          have nonempty : fork.serializedBlocks ≠ [] := by
            intro empty
            have vacuous : KnowsParent store server receiver fork := by simp [KnowsParent, empty]
            cases knows.mpr vacuous
          simp only [isSome_sendNack hints isFork]
          simp [nonempty]
        | true =>
          dsimp only
          cases views : viewsChecked receiver.view fork.serializedBlocks with
          | none =>
            have nonempty : fork.serializedBlocks ≠ [] := by
              intro empty
              rw [empty] at views
              cases views
            simp only [isSome_sendNack hints isFork]
            simp [nonempty, ReachesView, views]
          | some testView =>
            dsimp only
            split
            · next _ =>
              have behind : ¬ ae.view ≤ testView := by omega
              rw [isSome_sendNack hints isFork]
              have reaches : ¬ ReachesView receiver ae fork := by simp [ReachesView, views, behind]
              simp only [reaches, false_implies, implies_true, and_true]
              constructor
              · exact fun nonempty empty => absurd empty nonempty
              · intro inView empty
                rw [empty] at views
                cases views
                exact behind (inView empty)
            · next inView =>
              have reached : ReachesView receiver ae fork := ⟨testView, views, Nat.le_of_not_lt inView⟩
              rw [isSome_map, isSome_forwardFork_iff readable]
              simp only [reached, true_implies]
              refine (and_iff_right fun empty => ?_).symm
              rw [empty] at views
              cases views
              omega

/-- A node survives a message exactly if its bodies can be read and the message is
turned away or well formed. -/
theorem survives_iff (responsive : server.Responsive store) : Survives crypto store server receiver ae sender ↔
    (∀ block ∈ blocksOf ae, crypto.Readable block.serializedBody) ∧
      (TurnedAway crypto receiver ae sender ∨ WellFormed store server receiver ae) := by
  have answers : (∀ block ∈ blocksOf ae, ∀ minQcLen, crypto.Answers minQcLen block.serializedBody) ↔
      ∀ block ∈ blocksOf ae, crypto.Readable block.serializedBody := by
    simp [CryptoService.answers_iff_readable]
  unfold Survives
  rw [answers, and_comm]
  exact and_congr_right fun readable => isSome_processFork_iff responsive readable

def holdsFirst : LogServer := { log := [tinyBlock 1 1 false defaultHash] }

theorem responsive_holdsFirst : holdsFirst.Responsive fun _ => none :=
  LogServer.responsive_of_first fun block held => by
    cases held
    exact Nat.le_refl 1

theorem survives_second_block :
    holdsFirst.Responsive (fun _ => none) ∧
      Survives follower (fun _ => none) holdsFirst inViewOne
        (entries 1 false [tinyBlock 2 1 false (tinyBlock 1 1 false defaultHash).blockHash]) "node1" := by
  refine ⟨responsive_holdsFirst, (survives_iff responsive_holdsFirst).mpr ⟨by decide +kernel, .inr ?_⟩⟩
  exact ⟨nofun, nofun, fun _ _ _ _ _ => rfl⟩

def withBody (body : Bytes) : ProtoAppendEntries :=
  { entries 1 false [] with fork := some ⟨[{ Parts.signedBlock 0 1 1 with serializedBody := body }]⟩ }

/-- From the leader of view 1: no fork, a body that is too short, and one that is no protobuf
message. From the leader of view 2: a fork without blocks. -/
theorem not_survives_malformed :
    ¬ Survives follower (fun _ => none) holdsFirst inViewOne { entries 1 false [] with fork := none } "node1" ∧
      ¬ Survives follower (fun _ => none) holdsFirst inViewOne (withBody []) "node1" ∧
      ¬ Survives follower (fun _ => none) holdsFirst inViewOne
        (withBody (defaultHash ++ defaultHash ++ [255])) "node1" ∧
      ¬ Survives follower (fun _ => none) holdsFirst inViewOne (entries 2 false []) "node2" := by
  refine ⟨?_, ?_, ?_, ?_⟩ <;> exact fun survives => absurd survives.1 (by decide +kernel)

end ForkReceiver

end PirateShip
