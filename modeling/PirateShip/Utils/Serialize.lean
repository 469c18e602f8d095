import Mathlib.Data.List.Induction
import PirateShip.Proto

/-! The block codec: signature, parent hash and protobuf body, concatenated.
The protobuf encoder is generated code, so it is a parameter. An outer `none`
is a panic of the source. -/

set_option autoImplicit false

namespace PirateShip

open List

def signatureLength : Nat := 64

def digestLength : Nat := 64

def defaultHash : HashType := List.replicate digestLength 0

/-- The generated encoders and decoders of the messages that are hashed. -/
structure ProtoCodec where
  encodeBlock : ProtoBlock → Bytes
  decodeBlock : Bytes → Option ProtoBlock
  encodeQc : ProtoQuorumCertificate → Bytes

def toBeBytes (value : Nat) : Bytes :=
  [7, 6, 5, 4, 3, 2, 1, 0].map fun place => UInt8.ofNat (value / 256 ^ place)

def fromBeBytes (bytes : Bytes) : Nat :=
  bytes.foldl (fun value byte => value * 256 + byte.toNat) 0

theorem length_toBeBytes (value) : (toBeBytes value).length = 8 := rfl

theorem fromBeBytes_concat (bytes byte) : fromBeBytes (bytes ++ [byte]) = fromBeBytes bytes * 256 + byte.toNat := by
  simp [fromBeBytes]

theorem fromBeBytes_places (value count) :
    fromBeBytes ((List.range count).reverse.map fun place => UInt8.ofNat (value / 256 ^ place)) =
      value % 256 ^ count := by
  induction count generalizing value with
  | zero => simp [fromBeBytes, Nat.mod_one]
  | succ count ih =>
    have shifted : (List.range (count + 1)).reverse.map (fun place => UInt8.ofNat (value / 256 ^ place)) =
        (List.range count).reverse.map (fun place => UInt8.ofNat (value / 256 / 256 ^ place)) ++
          [UInt8.ofNat value] := by
      simp [range_succ_eq_map, Nat.div_div_eq_div_mul, Nat.pow_succ']
    rw [shifted, fromBeBytes_concat, ih, Nat.pow_succ', Nat.mod_mul, UInt8.toNat_ofNat']
    omega

theorem fromBeBytes_toBeBytes {value} (small : value < 2 ^ 64) : fromBeBytes (toBeBytes value) = value :=
  (fromBeBytes_places value 8).trans (Nat.mod_eq_of_lt small)

theorem toUTF8_inj {first second : String} :
    first.toUTF8.data.toList = second.toUTF8.data.toList ↔ first = second := by
  constructor
  · exact fun same => String.toByteArray_inj.mp (ByteArray.ext (Array.toList_inj.mp same))
  · rintro rfl
    rfl

theorem toUTF8_append (first second : String) :
    (first ++ second).toUTF8.data.toList = first.toUTF8.data.toList ++ second.toUTF8.data.toList := by
  simp

def serializeProtoBlockNascent (codec : ProtoCodec) (block : ProtoBlock) : Except String Bytes :=
  if block.parent.length ≠ 0 ∨ (block.sig ≠ none ∧ block.sig ≠ some .noSig) then
    .error "Invalid new block"
  else
    .ok (List.replicate signatureLength 0 ++ List.replicate digestLength 0 ++
      codec.encodeBlock block)

def serializeProtoBlockPrefilled (codec : ProtoCodec) (block : ProtoBlock) : Bytes :=
  let signature := match block.sig with
    | some (.proposerSig sig) => sig
    | some .noSig => List.replicate signatureLength 0
    | none => List.replicate signatureLength 0
  signature ++ block.parent ++ codec.encodeBlock { block with parent := [], sig := none }

/-- Slice assignment; `none` when the slice does not fit or the lengths differ. -/
def overwrite (bytes : Bytes) (start : Nat) (value : Bytes) (length : Nat) : Option Bytes :=
  if start + length ≤ bytes.length ∧ value.length = length then
    some (bytes.take start ++ value ++ bytes.drop (start + length))
  else none

def updateParentHashInProtoBlockSer (ser : Bytes) (parentHash : HashType) : Option Bytes :=
  overwrite ser signatureLength parentHash digestLength

def updateSignatureInProtoBlockSer (ser : Bytes) (signature : Bytes) : Option Bytes :=
  overwrite ser 0 signature signatureLength

def getParentHashInProtoBlockSer (ser : Bytes) : Option HashType :=
  if ser.length < digestLength + signatureLength then none
  else some ((ser.drop signatureLength).take digestLength)

def deserializeProtoBlock (codec : ProtoCodec) (ser : Bytes) :
    Option (Except String ProtoBlock) :=
  if ser.length < digestLength + signatureLength then
    some (.error "Invalid block length")
  else
    match codec.decodeBlock (ser.drop (digestLength + signatureLength)) with
    -- The source unwraps the decoded message.
    | none => none
    | some block =>
      let sig := ser.take signatureLength
      some (.ok { block with
        parent := (ser.drop signatureLength).take digestLength
        sig := some (if sig.all (· == 0) then .noSig else .proposerSig sig) })

end PirateShip
