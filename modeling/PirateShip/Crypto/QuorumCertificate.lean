import Mathlib.Data.Finset.Card
import Mathlib.Data.List.Forall2
import PirateShip.Crypto.Service

/-! Which certificates `verify_qc` accepts. It counts entries, not signers, so
a certificate speaks for as many signers as it has distinct names. -/

set_option autoImplicit false

namespace PirateShip

open List

variable {sigs : List ProtoNameWithSignature} {keys : List VerifyingKey} {count : Nat} {names : List String}

/-- What ed25519 documents: signatures of the fixed length, never all zero, that
verify, and a batch that verifies if and only if each of its signatures does. -/
structure Ed25519 (primitives : Primitives) (publicKey : SigningKey → VerifyingKey) : Prop where
  sign_length : ∀ key data, (primitives.sign key data).length = signatureLength
  sign_nonzero : ∀ key data, (primitives.sign key data).all (· == 0) = false
  verify_sign : ∀ key data, primitives.verify (publicKey key) data (primitives.sign key data) = true
  verifyBatch_iff : ∀ batch : List (Bytes × Bytes × VerifyingKey),
    primitives.verifyBatch (batch.map (·.1)) (batch.map (·.2.1)) (batch.map (·.2.2)) = true ↔
      ∀ entry ∈ batch, primitives.verify entry.2.2 entry.1 entry.2.1 = true

def ProtoNameWithSignature.Valid (primitives : Primitives) (keystore : KeyStore) (digest : HashType)
    (entry : ProtoNameWithSignature) : Prop :=
  entry.sig.length = signatureLength ∧ keystore.verify primitives entry.name entry.sig digest = true

variable {primitives : Primitives} {publicKey : SigningKey → VerifyingKey} {keystore : KeyStore}
  {qc : ProtoQuorumCertificate} {minLen : Nat}

theorem collectKeys_eq_some_iff {batch} : collectKeys keystore sigs = some (keys, batch) ↔
      batch = sigs.map (·.sig) ∧ List.Forall₂ (fun entry key =>
        entry.sig.length = signatureLength ∧ keystore.getPubkey entry.name = some key) sigs keys := by
  induction sigs generalizing keys batch with
  | nil => simp [collectKeys, and_comm]
  | cons entry rest ih =>
    unfold collectKeys
    constructor
    · intro collected
      split at collected
      · cases collected
      · next wellFormed =>
        split at collected
        · cases collected
        · next key known =>
          split at collected
          · cases collected
          · next _ _ found =>
            cases collected
            obtain ⟨rfl, all⟩ := ih.mp found
            exact ⟨rfl, .cons ⟨not_not.mp wellFormed, known⟩ all⟩
    · rintro ⟨rfl, all⟩
      cases all with
      | cons first all =>
        rw [if_neg (not_not.mpr first.1), first.2]
        rw [ih.mpr ⟨rfl, all⟩]
        rfl

theorem exists_invalid_of_collectKeys_eq_none {digest} (failed : collectKeys keystore sigs = none) :
    ∃ entry ∈ sigs, ¬ entry.Valid primitives keystore digest := by
  induction sigs with
  | nil => cases failed
  | cons entry rest ih =>
    unfold collectKeys at failed
    split at failed
    · next malformed => exact ⟨entry, mem_cons_self, fun valid => malformed valid.1⟩
    · split at failed
      · next unknown =>
        refine ⟨entry, mem_cons_self, fun valid => ?_⟩
        have verified := valid.2
        rw [KeyStore.verify, unknown] at verified
        cases verified
      · split at failed
        · next restFailed =>
          obtain ⟨other, member, invalid⟩ := ih restFailed
          exact ⟨other, mem_cons_of_mem _ member, invalid⟩
        · cases failed

private theorem exists_batch (primitives digest)
    (all : List.Forall₂ (fun entry key =>
      entry.sig.length = signatureLength ∧ keystore.getPubkey entry.name = some key) sigs keys) :
    ∃ batch : List (Bytes × Bytes × VerifyingKey),
      batch.map (·.1) = List.replicate keys.length digest ∧ batch.map (·.2.1) = sigs.map (·.sig) ∧
      batch.map (·.2.2) = keys ∧
      ((∀ item ∈ batch, primitives.verify item.2.2 item.1 item.2.1 = true) ↔
        ∀ entry ∈ sigs, entry.Valid primitives keystore digest) := by
  induction all with
  | nil => exact ⟨[], rfl, rfl, rfl, by simp⟩
  | @cons entry key sigs keys first _ ih =>
    obtain ⟨batch, msgs, signatures, held, valid⟩ := ih
    refine ⟨(digest, entry.sig, key) :: batch, ?_, ?_, ?_, ?_⟩
    · rw [map_cons, msgs]
      rfl
    · rw [map_cons, signatures, map_cons]
    · rw [map_cons, held]
    · have mine : primitives.verify key digest entry.sig = true ↔ entry.Valid primitives keystore digest := by
        unfold ProtoNameWithSignature.Valid KeyStore.verify
        rw [first.2]
        exact (and_iff_right first.1).symm
      rw [forall_mem_cons, forall_mem_cons, valid, mine]

theorem verifyQc_iff (ed25519 : Ed25519 primitives publicKey) : verifyQc primitives keystore qc minLen = true ↔
      minLen ≤ qc.sig.length ∧ ∀ entry ∈ qc.sig, entry.Valid primitives keystore qc.digest := by
  unfold verifyQc
  cases collected : collectKeys keystore qc.sig with
  | none =>
    refine ⟨nofun, fun ⟨_, valid⟩ => ?_⟩
    obtain ⟨entry, member, invalid⟩ := exists_invalid_of_collectKeys_eq_none collected
    exact absurd (valid entry member) invalid
  | some pair =>
    obtain ⟨keys, batch⟩ := pair
    obtain ⟨rfl, all⟩ := collectKeys_eq_some_iff.mp collected
    obtain ⟨batch, msgs, sigs, held, valid⟩ := exists_batch primitives qc.digest all
    have accepted := (ed25519.verifyBatch_iff batch).trans valid
    rw [msgs, sigs, held] at accepted
    have size : keys.length = qc.sig.length := all.length_eq.symm
    dsimp only
    split
    · next _ => exact ⟨nofun, fun ⟨long, _⟩ => absurd long (by omega)⟩
    · next long => rw [accepted, and_iff_right (by omega)]

/-!
## Distinct signers
-/

/-- At least `count` different names have a valid signature in the certificate. -/
def SignedBy (primitives : Primitives) (keystore : KeyStore) (qc : ProtoQuorumCertificate)
    (count : Nat) : Prop :=
  ∃ signers : Finset String, count ≤ signers.card ∧
    ∀ name ∈ signers, ∃ entry ∈ qc.sig, entry.name = name ∧ entry.Valid primitives keystore qc.digest

theorem SignedBy.le_card (signed : SignedBy primitives keystore qc count) :
    count ≤ (qc.sig.map (·.name)).toFinset.card := by
  obtain ⟨_, enough, valid⟩ := signed
  refine enough.trans (Finset.card_le_card fun name member => ?_)
  obtain ⟨_, held, rfl, -⟩ := valid name member
  exact mem_toFinset.mpr (mem_map_of_mem held)

theorem signedBy_of_valid (enough : count ≤ (qc.sig.map (·.name)).toFinset.card)
    (valid : ∀ entry ∈ qc.sig, entry.Valid primitives keystore qc.digest) :
    SignedBy primitives keystore qc count := by
  refine ⟨_, enough, fun name member => ?_⟩
  obtain ⟨entry, held, rfl⟩ := mem_map.mp (mem_toFinset.mp member)
  exact ⟨entry, held, rfl, valid entry held⟩

def KeyStore.sharing (key : VerifyingKey) (names : List String) : KeyStore where
  pubKeys := names.foldr (fun name keys => keys.insert name key) ∅
  privKey := []

theorem KeyStore.getPubkey_sharing (key) {name} (member : name ∈ names) :
    (KeyStore.sharing key names).getPubkey name = some key := by
  induction names with
  | nil => cases member
  | cons first rest ih =>
    change ((KeyStore.sharing key rest).pubKeys.insert first key).lookup name = some key
    by_cases same : name = first
    · rw [same, AList.lookup_insert]
    · rw [AList.lookup_insert_ne same]
      exact ih ((mem_cons.mp member).resolve_left same)

def ProtoQuorumCertificate.repeating (digest sig : Bytes) (names : List String) :
    ProtoQuorumCertificate where
  digest
  n := 1
  sig := names.map fun name => { name, sig }
  view := 1

/-- `verify_qc` accepts a certificate under any names, repeated ones included,
as long as there are enough of them. -/
theorem verifyQc_repeating (ed25519 : Ed25519 primitives publicKey) (key digest) (enough : minLen ≤ names.length) :
    verifyQc primitives (.sharing (publicKey key) names)
      (.repeating digest (primitives.sign key digest) names) minLen = true := by
  refine (verifyQc_iff ed25519).mpr ⟨?_, fun entry member => ?_⟩
  · rwa [ProtoQuorumCertificate.repeating, length_map]
  · obtain ⟨_, held, rfl⟩ := mem_map.mp member
    refine ⟨ed25519.sign_length key digest, ?_⟩
    rw [KeyStore.verify, KeyStore.getPubkey_sharing _ held]
    exact ed25519.verify_sign key digest

end PirateShip
