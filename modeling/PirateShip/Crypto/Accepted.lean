import PirateShip.Crypto.Service

/-! What the crypto service says of a serialized block that it accepts. -/

set_option autoImplicit false

namespace PirateShip

theorem getParentHash_of_deserialize {codec ser block}
    (decoded : deserializeProtoBlock codec ser = some (.ok block)) :
    getParentHashInProtoBlockSer ser = some block.parent := by
  unfold deserializeProtoBlock at decoded
  unfold getParentHashInProtoBlockSer
  split at decoded
  · cases decoded
  · next long =>
    rw [if_neg long]
    split at decoded
    · cases decoded
    · cases decoded
      rfl

namespace CryptoService

structure Accepts (service : CryptoService) (minQcLen : Nat) (blockSer : Bytes) (cached : CachedBlock) :
    Prop where
  ser : cached.blockSer = blockSer
  decoded : deserializeProtoBlock service.codec blockSer = some (.ok cached.block)
  hashed : hashProtoBlockSer service.primitives blockSer = some cached.blockHash
  faultless : service.blockFault minQcLen blockSer cached.block = none

variable {service : CryptoService} {minQcLen : Nat} {blockSer : Bytes} {cached : CachedBlock}

theorem accepts_of_verifyBlockSer {hash}
    (accepted : service.verifyBlockSer minQcLen blockSer = some (.ok cached, hash)) :
    service.Accepts minQcLen blockSer cached := by
  unfold verifyBlockSer at accepted
  split at accepted
  · cases accepted
  · next _ deserialized =>
    split at accepted
    · cases accepted
    · next hash hashed =>
      split at accepted
      · cases accepted
      · split at accepted
        · cases accepted
        · next faultless =>
          cases accepted
          exact ⟨rfl, deserialized, hashed, faultless⟩

theorem Accepts.parent (accepts : service.Accepts minQcLen blockSer cached) :
    getParentHashInProtoBlockSer blockSer = some cached.block.parent :=
  getParentHash_of_deserialize accepts.decoded

end CryptoService

/-!
## Blocks of four bytes
-/

def tinyCodec : ProtoCodec where
  encodeBlock block :=
    [UInt8.ofNat block.n, UInt8.ofNat block.view, if block.viewIsStable then 1 else 0,
      UInt8.ofNat block.configNum]
  decodeBlock
    | [n, view, viewIsStable, configNum] => some
      { n := n.toNat, view := view.toNat, viewIsStable := viewIsStable == 1, configNum := configNum.toNat }
    | _ => none
  encodeQc _ := []

/-- Hashes that keep the first bytes of what they hash, and signatures that keep
the first bytes of key and data. -/
def tinyPrimitives : Primitives where
  sha512 data := (data ++ defaultHash).take digestLength
  sign key data := (key ++ data ++ defaultHash).take signatureLength
  verify key data sig := sig == (key ++ data ++ defaultHash).take signatureLength
  verifyBatch msgs sigs keys := (msgs.zip (sigs.zip keys)).all fun item =>
    item.2.1 == (item.2.2 ++ item.1 ++ defaultHash).take signatureLength

def tinyKeys : KeyStore where
  pubKeys := ((∅ : HashMap String VerifyingKey).insert "node1" [1] |>.insert "node2" [2]).insert "node3" [3]
  privKey := []

def tinyNode (config : Config) : CryptoService where
  primitives := tinyPrimitives
  codec := tinyCodec
  keystore := tinyKeys
  config

def tinyBlock (n view : UInt8) (viewIsStable : Bool) (parent : HashType) : CachedBlock :=
  let stable : UInt8 := if viewIsStable then 1 else 0
  let blockSer := List.replicate signatureLength 0 ++ parent ++ [n, view, stable, 1]
  { block :=
      { n := n.toNat, parent, view := view.toNat, viewIsStable, configNum := 1, sig := some .noSig }
    blockSer
    blockHash := (hashProtoBlockSer tinyPrimitives blockSer).getD [] }

end PirateShip
