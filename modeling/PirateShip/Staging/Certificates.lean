import PirateShip.Crypto.Accepted
import PirateShip.Crypto.QuorumCertificate
import PirateShip.Staging.ChainInvariant

/-! What an accepted certificate says to the commit rules. The number of
entries is not a number of signers, and the sequence number and the view on a
certificate are covered by no signature in it, so the proposer chooses them. -/

set_option autoImplicit false

namespace PirateShip.Staging

open List StepSystem

variable {primitives : Primitives} {publicKey : SigningKey → VerifyingKey}
variable {qc : ProtoQuorumCertificate}

/-!
## Signers
-/

/-- An accepted certificate is sound, at the length that `verify_qc` checks and at the length of a
fast-path certificate, if and only if it has that many distinct names. All certificates with a list of
names are sound if and only if wherever there are that many entries there are that many distinct names. -/
theorem verifyQc_sound_iff (ed25519 : Ed25519 primitives publicKey) (config : Config)
    (names : List String) (minLen : Nat) :
    (∀ keystore qc, verifyQc primitives keystore qc minLen = true →
      (SignedBy primitives keystore qc minLen ↔ minLen ≤ (qc.sig.map (·.name)).toFinset.card) ∧
      (SignedBy primitives keystore qc (byzantineFastPathThreshold config) ↔
        byzantineFastPathThreshold config ≤ (qc.sig.map (·.name)).toFinset.card)) ∧
    ((∀ keystore qc, qc.sig.map (·.name) = names → verifyQc primitives keystore qc minLen = true →
      SignedBy primitives keystore qc minLen ∧
        (byzantineFastPathThreshold config ≤ qc.sig.length →
          SignedBy primitives keystore qc (byzantineFastPathThreshold config))) ↔
    (minLen ≤ names.length → minLen ≤ names.toFinset.card ∧
      (byzantineFastPathThreshold config ≤ names.length →
        byzantineFastPathThreshold config ≤ names.toFinset.card))) := by
  have sound_iff (keystore qc) (accepted : verifyQc primitives keystore qc minLen = true) (count : Nat) :
      SignedBy primitives keystore qc count ↔ count ≤ (qc.sig.map (·.name)).toFinset.card := by
    obtain ⟨-, valid⟩ := (verifyQc_iff ed25519).mp accepted
    exact ⟨(·.le_card), (signedBy_of_valid · valid)⟩
  refine ⟨fun keystore qc accepted => ⟨sound_iff keystore qc accepted _, sound_iff keystore qc accepted _⟩, ?_, ?_⟩
  · intro sound enough
    have sameNames : (ProtoQuorumCertificate.repeating defaultHash (primitives.sign [] defaultHash)
        names).sig.map (·.name) = names := by
      rw [ProtoQuorumCertificate.repeating, map_map]
      exact map_id names
    have size : (ProtoQuorumCertificate.repeating defaultHash (primitives.sign [] defaultHash)
        names).sig.length = names.length := length_map _
    obtain ⟨slow, fast⟩ := sound _ _ sameNames (verifyQc_repeating ed25519 [] defaultHash enough)
    refine ⟨sameNames ▸ slow.le_card, fun long => sameNames ▸ (fast ?_).le_card⟩
    rwa [size]
  · rintro distinct keystore qc rfl accepted
    rw [length_map] at distinct
    obtain ⟨slow, fast⟩ := distinct ((verifyQc_iff ed25519).mp accepted).1
    exact ⟨(sound_iff keystore qc accepted _).mpr slow,
      fun long => (sound_iff keystore qc accepted _).mpr (fast long)⟩

def repeatingPrimitives : Primitives where
  sha512 data := (data ++ defaultHash).take digestLength
  sign key data := (1 :: key ++ data ++ defaultHash).take signatureLength
  verify key data sig := sig == (1 :: key ++ data ++ defaultHash).take signatureLength
  verifyBatch msgs sigs keys := (msgs.zip (sigs.zip keys)).all fun item =>
    item.2.1 == (1 :: item.2.2 ++ item.1 ++ defaultHash).take signatureLength

theorem ed25519_repeatingPrimitives : Ed25519 repeatingPrimitives id where
  sign_length key data := by
    simp only [repeatingPrimitives, defaultHash, length_take, length_append,
      length_replicate, digestLength, signatureLength]
    omega
  sign_nonzero key data := by
    simp [repeatingPrimitives, signatureLength]
  verify_sign key data := by
    simp [repeatingPrimitives]
  verifyBatch_iff batch := by
    simp only [repeatingPrimitives, zip_map', all_map, all_eq_true]
    rfl

def threeKeys : KeyStore where
  pubKeys := ((∅ : HashMap String VerifyingKey).insert "node1" [1] |>.insert "node2" [2]).insert "node3" [3]
  privKey := [3]

/-- The signature of one node, three times, is a certificate of two nodes to
`verify_qc` and one of all three nodes to the fast path. -/
theorem repeated_signature_is_quorum :
    Ed25519 repeatingPrimitives id ∧ ∃ qc : ProtoQuorumCertificate,
      verifyQc repeatingPrimitives threeKeys qc 2 = true ∧
      byzantineFastPathThreshold (threeNodes "node2").config ≤ qc.sig.length ∧
      ¬ SignedBy repeatingPrimitives threeKeys qc 2 := by
  refine ⟨ed25519_repeatingPrimitives, .repeating defaultHash
    (repeatingPrimitives.sign [1] defaultHash) ["node1", "node1", "node1"], by decide +kernel,
    by decide, fun signed => ?_⟩
  have single : (["node1", "node1", "node1"] : List String).toFinset.card = 1 := by decide
  exact absurd (signed.le_card.trans single.le) (by decide)

def twoSigned (digest : HashType) (n view : Nat) : ProtoQuorumCertificate where
  digest
  n
  view
  sig := [{ name := "node1", sig := repeatingPrimitives.sign [1] digest },
    { name := "node2", sig := repeatingPrimitives.sign [2] digest }]

theorem distinct_signers_are_sound :
    verifyQc repeatingPrimitives threeKeys (twoSigned defaultHash 1 1) 2 = true ∧
      SignedBy repeatingPrimitives threeKeys (twoSigned defaultHash 1 1) 2 := by
  have accepted : verifyQc repeatingPrimitives threeKeys (twoSigned defaultHash 1 1) 2 = true := by
    decide +kernel
  obtain ⟨exact_iff, -⟩ := verifyQc_sound_iff ed25519_repeatingPrimitives (threeNodes "node2").config [] 2
  exact ⟨accepted, (exact_iff threeKeys (twoSigned defaultHash 1 1) accepted).1.mpr (by decide)⟩

/-!
## Labels
-/

variable {service : CryptoService} {minQcLen : Nat} {cached : CachedBlock} {staging : Staging}

def plainBlock (n view : Nat) (qc : List ProtoQuorumCertificate) : ProtoBlock where
  n
  view
  qc
  configNum := 1

def signedBlock (key : SigningKey) (parent : HashType) (block : ProtoBlock) : CachedBlock :=
  let body := parent ++ [UInt8.ofNat block.n]
  let sig := repeatingPrimitives.sign key (repeatingPrimitives.sha512 body)
  { block := { block with parent, sig := some (.proposerSig sig) }
    blockSer := sig ++ body
    blockHash := (hashProtoBlockSer repeatingPrimitives (sig ++ body)).getD [] }

def honestBlock : CachedBlock := signedBlock [1] defaultHash (plainBlock 1 1 [])

/-- Block 2 by the leader of view 3, with a certificate of two nodes for block 1
that it labels with number 7 and its own view. -/
def forgedBody : ProtoBlock := plainBlock 2 3 [twoSigned honestBlock.blockHash 7 3]

def keyedNode (name : String) : CryptoService where
  primitives := repeatingPrimitives
  codec :=
    { encodeBlock := fun block => [UInt8.ofNat block.n]
      decodeBlock := fun body =>
        if body = [1] then some (plainBlock 1 1 []) else if body = [2] then some forgedBody else none
      encodeQc := fun _ => [] }
  keystore := threeKeys
  config := (threeNodes name).config

end PirateShip.Staging
