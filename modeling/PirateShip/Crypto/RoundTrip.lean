import PirateShip.Crypto.Accepted

/-! The producer of a block and its consumers. The encoder that is filled in step by step,
the one that writes a finished block and the decoder agree on the header, and so do
the handlers of the crypto service that prepare, check and verify a block. -/

set_option autoImplicit false

namespace PirateShip

open List Option

/-!
## The header
-/

def layout (signature parent body : Bytes) : Bytes := signature ++ parent ++ body

section Layout

variable {signature parent : Bytes} (signatureFits : signature.length = signatureLength)
  (parentFits : parent.length = digestLength) (body : Bytes)

include signatureFits

theorem take_layout : (layout signature parent body).take signatureLength = signature := by
  rw [layout, append_assoc, take_left' signatureFits]

theorem drop_layout : (layout signature parent body).drop signatureLength = parent ++ body := by
  rw [layout, append_assoc, drop_left' signatureFits]

theorem updateSignature_layout {other} (fits : other.length = signatureLength) :
    updateSignatureInProtoBlockSer (layout signature parent body) other = some (layout other parent body) := by
  have long : 0 + signatureLength ≤ (layout signature parent body).length := by
    simp only [layout, length_append]
    omega
  rw [updateSignatureInProtoBlockSer, overwrite, if_pos ⟨long, fits⟩, Nat.zero_add, drop_layout signatureFits,
    take_zero, nil_append, layout, append_assoc]

include parentFits

theorem length_layout : ¬(layout signature parent body).length < digestLength + signatureLength := by
  simp only [layout, length_append]
  omega

theorem body_layout : (layout signature parent body).drop (digestLength + signatureLength) = body := by
  rw [Nat.add_comm, ← drop_drop, drop_layout signatureFits, drop_left' parentFits]

theorem parent_layout : ((layout signature parent body).drop signatureLength).take digestLength = parent := by
  rw [drop_layout signatureFits, take_left' parentFits]

theorem updateParentHash_layout {other} (fits : other.length = digestLength) :
    updateParentHashInProtoBlockSer (layout signature parent body) other = some (layout signature other body) := by
  have long : signatureLength + digestLength ≤ (layout signature parent body).length := by
    have := length_layout signatureFits parentFits body
    omega
  rw [updateParentHashInProtoBlockSer, overwrite, if_pos ⟨long, fits⟩, take_layout signatureFits,
    Nat.add_comm signatureLength, body_layout signatureFits parentFits, layout]

theorem getParentHash_layout : getParentHashInProtoBlockSer (layout signature parent body) = some parent := by
  rw [getParentHashInProtoBlockSer, if_neg (length_layout signatureFits parentFits body),
    parent_layout signatureFits parentFits]

theorem hashProtoBlockSer_layout (primitives) : hashProtoBlockSer primitives (layout signature parent body) =
      some (primitives.sha512 (body ++ parent ++ signature)) := by
  rw [hashProtoBlockSer, if_neg (length_layout signatureFits parentFits body), take_layout signatureFits,
    parent_layout signatureFits parentFits, body_layout signatureFits parentFits]

end Layout

/-!
## Serialization
-/

def ProtoBlock.bare (block : ProtoBlock) : ProtoBlock := { block with parent := [], sig := none }

def ProtoBlock.asRead (block : ProtoBlock) : ProtoBlock := { block with sig := some (block.sig.getD .noSig) }

def IsSignature (sig : Bytes) : Prop := sig.length = signatureLength ∧ ∃ byte ∈ sig, byte ≠ 0

def ProtoBlock.signature (block : ProtoBlock) : Bytes :=
  match block.sig with
  | some (.proposerSig sig) => sig
  | _ => List.replicate signatureLength 0

def serializeInStages (codec : ProtoCodec) (block : ProtoBlock) : Option Bytes :=
  match serializeProtoBlockNascent codec block.bare with
  | .error _ => none
  | .ok nascent =>
    match updateParentHashInProtoBlockSer nascent block.parent with
    | none => none
    | some buf =>
      match block.sig with
      | some (.proposerSig sig) => updateSignatureInProtoBlockSer buf sig
      | _ => some buf

section Codec

variable {codec : ProtoCodec} {block : ProtoBlock}

theorem IsSignature.not_null {sig} (isSignature : IsSignature sig) : ¬sig.all (· == 0) := by
  obtain ⟨-, byte, mem, nonzero⟩ := isSignature
  intro null
  exact nonzero (beq_iff_eq.mp (all_eq_true.mp null byte mem))

theorem serializeProtoBlockPrefilled_eq (codec block) : serializeProtoBlockPrefilled codec block =
      layout block.signature block.parent (codec.encodeBlock block.bare) := by
  cases sig : block.sig with
  | none => simp [serializeProtoBlockPrefilled, ProtoBlock.signature, sig, layout, ProtoBlock.bare]
  | some kind => cases kind <;> simp only [serializeProtoBlockPrefilled, ProtoBlock.signature, sig, layout,
      ProtoBlock.bare]

theorem serializeProtoBlockNascent_bare (codec : ProtoCodec) (block : ProtoBlock) :
    serializeProtoBlockNascent codec block.bare =
      .ok (layout (List.replicate signatureLength 0) (List.replicate digestLength 0)
        (codec.encodeBlock block.bare)) := by
  rw [serializeProtoBlockNascent, if_neg (by simp [ProtoBlock.bare]), layout]

theorem ProtoBlock.signature_asRead (block : ProtoBlock) : block.asRead.signature = block.signature := by
  cases sig : block.sig with
  | none => simp [ProtoBlock.signature, ProtoBlock.asRead, sig]
  | some kind => cases kind <;> simp [ProtoBlock.signature, ProtoBlock.asRead, sig]

structure ProtoBlock.Encodable (block : ProtoBlock) : Prop where
  parent : block.parent.length = digestLength
  sig : ∀ sig, block.sig = some (.proposerSig sig) → IsSignature sig

variable (encodable : block.Encodable)
include encodable

theorem ProtoBlock.Encodable.signature_length : block.signature.length = signatureLength := by
  unfold ProtoBlock.signature
  split
  · next sig signed => exact (encodable.sig sig signed).1
  · exact length_replicate

theorem ProtoBlock.Encodable.signature_read :
    (if block.signature.all (· == 0) then .noSig else .proposerSig block.signature) = block.sig.getD .noSig := by
  cases sig : block.sig with
  | none => simp [ProtoBlock.signature, sig]
  | some kind =>
    cases kind with
    | noSig => simp [ProtoBlock.signature, sig]
    | proposerSig bytes =>
      have same : block.signature = bytes := by simp only [ProtoBlock.signature, sig]
      rw [same, if_neg (encodable.sig bytes sig).not_null, getD_some]

theorem deserializeProtoBlock_prefilled
    (inverts : codec.decodeBlock (codec.encodeBlock block.bare) = some block.bare) :
    deserializeProtoBlock codec (serializeProtoBlockPrefilled codec block) = some (.ok block.asRead) := by
  have fits := encodable.signature_length
  rw [serializeProtoBlockPrefilled_eq, deserializeProtoBlock, if_neg (length_layout fits encodable.parent _),
    body_layout fits encodable.parent, inverts]
  dsimp only
  rw [take_layout fits, parent_layout fits encodable.parent, encodable.signature_read]
  rfl

theorem serializeInStages_eq : serializeInStages codec block = some (serializeProtoBlockPrefilled codec block) := by
  have filled : updateParentHashInProtoBlockSer (layout (List.replicate signatureLength 0)
      (List.replicate digestLength 0) (codec.encodeBlock block.bare)) block.parent =
        some (layout (List.replicate signatureLength 0) block.parent (codec.encodeBlock block.bare)) :=
    updateParentHash_layout length_replicate length_replicate _ encodable.parent
  rw [serializeInStages, serializeProtoBlockNascent_bare, serializeProtoBlockPrefilled_eq]
  dsimp only
  rw [filled]
  cases sig : block.sig with
  | none => simp [ProtoBlock.signature, sig]
  | some kind =>
    cases kind with
    | noSig => simp [ProtoBlock.signature, sig]
    | proposerSig bytes =>
      simp only [ProtoBlock.signature, sig]
      exact updateSignature_layout length_replicate _ (encodable.sig bytes sig).1

omit encodable

/-- Both encoders write the bytes that the decoder reads the block from. -/
theorem protoBlock_round_trip (inverts : codec.decodeBlock (codec.encodeBlock block.bare) = some block.bare)
    (parent : block.parent.length = digestLength)
    (sig : ∀ sig, block.sig = some (.proposerSig sig) → IsSignature sig) :
    deserializeProtoBlock codec (serializeProtoBlockPrefilled codec block) = some (.ok block.asRead) ∧
    serializeProtoBlockPrefilled codec block.asRead = serializeProtoBlockPrefilled codec block ∧
    serializeInStages codec block = some (serializeProtoBlockPrefilled codec block) ∧
    getParentHashInProtoBlockSer (serializeProtoBlockPrefilled codec block) = some block.parent := by
  have encodable : block.Encodable := ⟨parent, sig⟩
  refine ⟨deserializeProtoBlock_prefilled encodable inverts, ?_, serializeInStages_eq encodable, ?_⟩
  · rw [serializeProtoBlockPrefilled_eq, serializeProtoBlockPrefilled_eq, block.signature_asRead]
    rfl
  · rw [serializeProtoBlockPrefilled_eq, getParentHash_layout encodable.signature_length parent]

end Codec

def signedBlock : ProtoBlock :=
  { n := 1, parent := defaultHash, view := 1, viewIsStable := true, configNum := 1
    sig := some (.proposerSig (List.replicate signatureLength 7)) }

theorem isSignature_replicate {byte} (nonzero : byte ≠ 0) : IsSignature (List.replicate signatureLength byte) :=
  ⟨length_replicate, byte, mem_replicate.mpr ⟨by decide, rfl⟩, nonzero⟩

theorem signedBlock_round_trip :
    deserializeProtoBlock tinyCodec (serializeProtoBlockPrefilled tinyCodec signedBlock) =
      some (.ok signedBlock.asRead) ∧
    serializeProtoBlockPrefilled tinyCodec signedBlock.asRead = serializeProtoBlockPrefilled tinyCodec signedBlock ∧
    serializeInStages tinyCodec signedBlock = some (serializeProtoBlockPrefilled tinyCodec signedBlock) ∧
    getParentHashInProtoBlockSer (serializeProtoBlockPrefilled tinyCodec signedBlock) = some signedBlock.parent := by
  refine protoBlock_round_trip (by decide +kernel) (by decide +kernel) ?_
  rintro _ ⟨⟩
  exact isSignature_replicate (by decide)

/-!
## The handlers
-/

def CachedBlock.asRead (cached : CachedBlock) : CachedBlock := { cached with block := cached.block.asRead }

namespace CryptoService

def filled (service : CryptoService) (protoBlock : ProtoBlock) (mustSign : Bool) (parent : HashType) : ProtoBlock :=
  { protoBlock with
    parent
    sig := if mustSign then some (.proposerSig (service.sign (service.primitives.sha512
      (parent ++ service.codec.encodeBlock protoBlock.bare)))) else none }

variable {producer consumer : CryptoService} {protoBlock : ProtoBlock} {mustSign : Bool} {parent : HashType}
  {minQcLen : Nat}

theorem filled_bare (producer : CryptoService) (protoBlock : ProtoBlock) (mustSign : Bool) (parent : HashType) :
    (producer.filled protoBlock mustSign parent).bare = protoBlock.bare := rfl

theorem filled_encodable (signs : ∀ data, IsSignature (producer.sign data)) (fits : parent.length = digestLength) :
    (producer.filled protoBlock mustSign parent).Encodable := by
  refine ⟨fits, ?_⟩
  intro sig signed
  simp only [filled] at signed
  split at signed
  · cases signed
    exact signs _
  · cases signed

theorem prepareBlock_eq (signs : ∀ data, IsSignature (producer.sign data)) (fits : parent.length = digestLength) :
    ∃ hash, producer.prepareBlock protoBlock mustSign parent = some
        { block := producer.filled protoBlock mustSign parent
          blockSer := serializeProtoBlockPrefilled producer.codec (producer.filled protoBlock mustSign parent)
          blockHash := hash } ∧
      hashProtoBlockSer producer.primitives
        (serializeProtoBlockPrefilled producer.codec (producer.filled protoBlock mustSign parent)) = some hash := by
  have encodable : (producer.filled protoBlock mustSign parent).Encodable := filled_encodable signs fits
  have nulls : (List.replicate signatureLength (0 : UInt8)).length = signatureLength := length_replicate
  have noParent : (List.replicate digestLength (0 : UInt8)).length = digestLength := length_replicate
  have nascent := serializeProtoBlockNascent_bare producer.codec protoBlock
  unfold prepareBlock
  rw [show ({ protoBlock with sig := none, parent := [] } : ProtoBlock) = protoBlock.bare from rfl, nascent]
  dsimp only
  rw [updateParentHash_layout nulls noParent _ fits]
  dsimp only
  rw [drop_layout nulls, take_left' fits]
  rw [serializeProtoBlockPrefilled_eq, filled_bare, hashProtoBlockSer_layout encodable.signature_length
    encodable.parent]
  refine ⟨_, ?_, rfl⟩
  cases mustSign with
  | false =>
    rfl
  | true =>
    rw [updateSignature_layout nulls _ (signs _).1]
    dsimp only
    rw [take_layout (signs _).1]
    rfl

theorem hash_of_checkBlockSer {hash ser cached} (accepted : consumer.checkBlockSer hash ser = some (.ok cached)) :
    hashProtoBlockSer consumer.primitives ser = some hash := by
  unfold checkBlockSer at accepted
  split at accepted
  · cases accepted
  · next _ hashed =>
    split at accepted
    · cases accepted
    · next same => rw [hashed, not_not.mp same]

theorem checkBlockSer_of_ne {hash computed ser}
    (hashed : hashProtoBlockSer consumer.primitives ser = some computed) (differs : computed ≠ hash) :
    consumer.checkBlockSer hash ser = some (.error "Invalid hash") := by
  rw [checkBlockSer, hashed]
  exact if_pos differs

theorem blockFault_filled (signs : ∀ data, IsSignature (producer.sign data)) (fits : parent.length = digestLength)
    (samePrimitives : consumer.primitives = producer.primitives)
    (leads : ∀ data, consumer.verify data (consumer.config.getLeaderForView protoBlock.view)
      (producer.sign data) = true)
    (certified : ∀ qc ∈ protoBlock.qc, verifyQc consumer.primitives consumer.keystore qc minQcLen = true)
    (attached : mustSign = false → protoBlock.qc = []) :
    consumer.blockFault minQcLen
      (serializeProtoBlockPrefilled producer.codec (producer.filled protoBlock mustSign parent))
      (producer.filled protoBlock mustSign parent).asRead = none := by
  have encodable : (producer.filled protoBlock mustSign parent).Encodable := filled_encodable signs fits
  cases mustSign with
  | false => simp [blockFault, ProtoBlock.asRead, filled, attached rfl]
  | true =>
    have covered : (serializeProtoBlockPrefilled producer.codec
        (producer.filled protoBlock true parent)).drop signatureLength =
          parent ++ producer.codec.encodeBlock protoBlock.bare := by
      rw [serializeProtoBlockPrefilled_eq, drop_layout encodable.signature_length]
      rfl
    rw [samePrimitives] at certified
    have allCertified : (protoBlock.qc.all fun qc => verifyQc producer.primitives consumer.keystore qc minQcLen) =
        true := all_eq_true.mpr certified
    rw [blockFault, covered, samePrimitives]
    simp [ProtoBlock.asRead, filled, (signs _).1, leads, allCertified]

/-- A block that is prepared is read back from its bytes, and accepted if the node leads
the view of the block. Under another hash nothing is read. -/
theorem prepareBlock_agrees (samePrimitives : consumer.primitives = producer.primitives)
    (sameCodec : consumer.codec = producer.codec)
    (inverts : producer.codec.decodeBlock (producer.codec.encodeBlock protoBlock.bare) = some protoBlock.bare)
    (signs : ∀ data, IsSignature (producer.sign data)) (fits : parent.length = digestLength) :
    (∃ prepared, producer.prepareBlock protoBlock mustSign parent = some prepared ∧
      hashProtoBlockSer producer.primitives prepared.blockSer = some prepared.blockHash ∧
      consumer.checkBlockSer prepared.blockHash prepared.blockSer = some (.ok prepared.asRead) ∧
      ((∀ data, consumer.verify data (consumer.config.getLeaderForView protoBlock.view) (producer.sign data) = true) →
        (∀ qc ∈ protoBlock.qc, verifyQc consumer.primitives consumer.keystore qc minQcLen = true) →
        (mustSign = false → protoBlock.qc = []) →
        consumer.verifyBlockSer minQcLen prepared.blockSer = some (.ok prepared.asRead, .ok prepared.blockHash))) ∧
    (∀ hash ser cached, consumer.checkBlockSer hash ser = some (.ok cached) →
      hashProtoBlockSer consumer.primitives ser = some hash) ∧
    ∀ hash ser computed, hashProtoBlockSer consumer.primitives ser = some computed → computed ≠ hash →
      consumer.checkBlockSer hash ser = some (.error "Invalid hash") := by
  refine ⟨?_, fun _ _ _ => hash_of_checkBlockSer, fun _ _ _ => checkBlockSer_of_ne⟩
  obtain ⟨hash, prepared, hashed⟩ : ∃ hash, _ := prepareBlock_eq signs fits
  have decoded : deserializeProtoBlock consumer.codec
      (serializeProtoBlockPrefilled producer.codec (producer.filled protoBlock mustSign parent)) =
        some (.ok (producer.filled protoBlock mustSign parent).asRead) := by
    rw [sameCodec]
    exact deserializeProtoBlock_prefilled (filled_encodable signs fits) inverts
  refine ⟨_, prepared, hashed, ?_, ?_⟩
  · rw [checkBlockSer, samePrimitives, hashed]
    dsimp only
    rw [if_neg (not_not.mpr rfl), decoded]
    rfl
  · intro leads certified attached
    have faultless := blockFault_filled signs fits samePrimitives leads certified attached
    rw [verifyBlockSer, decoded, samePrimitives, hashed]
    dsimp only
    rw [faultless]
    rfl

end CryptoService

def firstLeader : CryptoService :=
  { tinyNode { netConfig := { name := "node1" }, consensusConfig := { nodeList := ["node1"], livenessU := 0 } } with
    keystore := { tinyKeys with privKey := [1] } }

theorem firstLeader_signs (data) : IsSignature (firstLeader.sign data) := by
  have signature : firstLeader.sign data = ([1] ++ data ++ defaultHash).take signatureLength := rfl
  rw [signature]
  refine ⟨?_, 1, ?_, by decide⟩
  · rw [length_take, length_append]
    exact Nat.min_eq_left (Nat.le_add_left _ _)
  · exact mem_cons_self

theorem firstLeader_agrees :
    ∃ prepared, firstLeader.prepareBlock signedBlock true defaultHash = some prepared ∧
      hashProtoBlockSer firstLeader.primitives prepared.blockSer = some prepared.blockHash ∧
      firstLeader.checkBlockSer prepared.blockHash prepared.blockSer = some (.ok prepared.asRead) ∧
      firstLeader.verifyBlockSer 0 prepared.blockSer = some (.ok prepared.asRead, .ok prepared.blockHash) := by
  obtain ⟨⟨prepared, ran, hashed, checked, verified⟩, -⟩ :=
    CryptoService.prepareBlock_agrees (rfl : firstLeader.primitives = firstLeader.primitives) rfl
      (by decide +kernel : tinyCodec.decodeBlock (tinyCodec.encodeBlock signedBlock.bare) = some signedBlock.bare)
      firstLeader_signs (by decide : defaultHash.length = digestLength)
  refine ⟨prepared, ran, hashed, checked, verified ?_ (forall_mem_nil _) (fun _ => rfl)⟩
  intro data
  exact beq_self_eq_true _

end PirateShip
