import PirateShip.Config
import PirateShip.Utils.Serialize

/-! The crypto service and the key store. Hashing and ed25519 come from other
crates and are parameters; what the service does with them is the source's. -/

set_option autoImplicit false

namespace PirateShip

abbrev VerifyingKey := Bytes

abbrev SigningKey := Bytes

structure Primitives where
  sha512 : Bytes → HashType
  sign : SigningKey → Bytes → Bytes
  verify : VerifyingKey → Bytes → Bytes → Bool
  verifyBatch : List Bytes → List Bytes → List VerifyingKey → Bool

structure KeyStore where
  pubKeys : HashMap String VerifyingKey
  privKey : SigningKey

structure CryptoService where
  primitives : Primitives
  codec : ProtoCodec
  keystore : KeyStore
  config : Config

def KeyStore.getPubkey (keystore : KeyStore) (name : String) : Option VerifyingKey :=
  keystore.pubKeys.lookup name

/-- `KeyStore::verify`, on a signature that has the right length. -/
def KeyStore.verify (keystore : KeyStore) (primitives : Primitives) (name : String)
    (sig data : Bytes) : Bool :=
  match keystore.getPubkey name with
  | some key => primitives.verify key data sig
  | none => false

/-- `hash_proto_block_ser`; the three slices panic on a short serialization. -/
def hashProtoBlockSer (primitives : Primitives) (data : Bytes) : Option HashType :=
  if data.length < digestLength + signatureLength then none
  else some (primitives.sha512 (data.drop (digestLength + signatureLength) ++
    (data.drop signatureLength).take digestLength ++ data.take signatureLength))

/-!
## Quorum certificates
-/

/-- The loop of `verify_qc`: keys and signatures in the order of the
certificate, or `none` at the first malformed or unknown entry. -/
def collectKeys (keystore : KeyStore) :
    List ProtoNameWithSignature → Option (List VerifyingKey × List Bytes)
  | [] => some ([], [])
  | entry :: rest =>
    if entry.sig.length ≠ signatureLength then none
    else
      match keystore.getPubkey entry.name with
      | none => none
      | some key =>
        match collectKeys keystore rest with
        | none => none
        | some (keys, sigs) => some (key :: keys, entry.sig :: sigs)

def verifyQc (primitives : Primitives) (keystore : KeyStore) (qc : ProtoQuorumCertificate)
    (minLen : Nat) : Bool :=
  match collectKeys keystore qc.sig with
  | none => false
  | some (keys, sigs) =>
    if keys.length < minLen then false
    else
      let msgs := List.replicate keys.length qc.digest
      primitives.verifyBatch msgs sigs keys

namespace CryptoService

def sign (service : CryptoService) (data : Bytes) : Bytes :=
  service.primitives.sign service.keystore.privKey data

def verify (service : CryptoService) (data : Bytes) (signer : String) (sig : Bytes) : Bool :=
  service.keystore.verify service.primitives signer sig data

/-!
## Blocks
-/

/-- `PrepareBlock`: fill in the parent, sign if asked to, and hash. -/
def prepareBlock (service : CryptoService) (protoBlock : ProtoBlock) (mustSign : Bool)
    (parent : HashType) : Option CachedBlock :=
  match serializeProtoBlockNascent service.codec { protoBlock with sig := none, parent := [] } with
  | .error _ => none
  | .ok nascent =>
    -- What the hasher has been fed: the body before the parent is known, then the parent.
    let body := nascent.drop (digestLength + signatureLength)
    match updateParentHashInProtoBlockSer nascent parent with
    | none => none
    | some buf =>
      let fed := body ++ (buf.drop signatureLength).take digestLength
      if mustSign then
        -- The signature covers the parent hash and the body.
        let sig := service.sign (service.primitives.sha512 (buf.drop signatureLength))
        match updateSignatureInProtoBlockSer buf sig with
        | none => none
        | some signed => some
          { block := { protoBlock with sig := some (.proposerSig sig), parent := parent }
            blockSer := signed
            blockHash := service.primitives.sha512 (fed ++ signed.take signatureLength) }
      else some
        { block := { protoBlock with sig := none, parent := parent }
          blockSer := buf
          blockHash := service.primitives.sha512 (fed ++ buf.take signatureLength) }

theorem prepareBlock_block {service : CryptoService} {protoBlock : ProtoBlock} {mustSign : Bool} {parent : HashType}
    {block : CachedBlock} (prepared : service.prepareBlock protoBlock mustSign parent = some block) :
    ∃ sig, block.block = { protoBlock with sig, parent } := by
  unfold prepareBlock at prepared
  split at prepared
  · cases prepared
  · dsimp only at prepared
    split at prepared
    · cases prepared
    · split at prepared
      · split at prepared
        · cases prepared
        · cases prepared
          exact ⟨_, rfl⟩
      · cases prepared
        exact ⟨_, rfl⟩

def checkBlockSer (service : CryptoService) (hash : HashType) (blockSer : Bytes) :
    Option (Except String CachedBlock) :=
  match hashProtoBlockSer service.primitives blockSer with
  | none => none
  | some computed =>
    if computed ≠ hash then some (.error "Invalid hash")
    else
      match deserializeProtoBlock service.codec blockSer with
      | none => none
      | some (.error _) => some (.error "Decode error")
      | some (.ok block) => some (.ok { block, blockSer, blockHash := hash })

/-- The signature and certificate checks of `VerifyBlockSer`. A signed block is
checked against the leader of the view it claims, an unsigned one may not carry
certificates. -/
def blockFault (service : CryptoService) (minQcLen : Nat) (blockSer : Bytes)
    (block : ProtoBlock) : Option String :=
  match block.sig with
  | some (.proposerSig sig) =>
    let partialHash := service.primitives.sha512 (blockSer.drop signatureLength)
    if sig.length ≠ signatureLength then some "Invalid signature"
    else if !service.verify partialHash (service.config.getLeaderForView block.view) sig then
      some "Invalid signature"
    else if !block.qc.all fun qc => verifyQc service.primitives service.keystore qc minQcLen then
      some "Invalid QC"
    else none
  | _ => if 0 < block.qc.length then some "QC without signed block" else none

/-- `VerifyBlockSer`, with the answers on the block and on the hash channel. -/
def verifyBlockSer (service : CryptoService) (minQcLen : Nat) (blockSer : Bytes) :
    Option (Except String CachedBlock × Except String HashType) :=
  match deserializeProtoBlock service.codec blockSer with
  | none => none
  | some decoded =>
    match hashProtoBlockSer service.primitives blockSer with
    | none => none
    | some hash =>
      match decoded with
      | .error _ => some (.error "Decode error", .error "Decode error")
      | .ok block =>
        match service.blockFault minQcLen blockSer block with
        | some fault => some (.error fault, .error fault)
        | none => some (.ok { block, blockSer, blockHash := hash }, .ok hash)

/-!
## View-change messages
-/

/-- The signed text: `H(last block) || H(fork_last_qc) || view || config_num || fork_last_n`. -/
def vcText (service : CryptoService) (vc : ProtoViewChange) : Option Bytes :=
  let lastBlock := vc.fork.bind fun fork => fork.serializedBlocks.getLast?
  let lastBlockHash := match lastBlock with
    | some block => hashProtoBlockSer service.primitives block.serializedBody
    | none => some defaultHash
  lastBlockHash.map fun blockHash =>
    let qcHash := match vc.forkLastQc with
      | some qc => service.primitives.sha512 (service.codec.encodeQc qc)
      | none => defaultHash
    blockHash ++ qcHash ++ toBeBytes vc.view ++ toBeBytes vc.configNum ++ toBeBytes vc.forkLastN

def prepareVc (service : CryptoService) (vc : ProtoViewChange) : Option ProtoViewChange :=
  (service.vcText vc).map fun text => { vc with forkSig := service.sign text }

/-- `VerifyVC`; a signature of the wrong length fails an `unwrap`. -/
def verifyVc (service : CryptoService) (vc : ProtoViewChange) (name : String) : Option Bool :=
  match service.vcText vc with
  | none => none
  | some text =>
    if vc.forkSig.length ≠ signatureLength then none
    else some (service.verify text name vc.forkSig)

end CryptoService

end PirateShip
