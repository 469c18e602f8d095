import PirateShip.Crypto.Service

/-! The handshake that gives a connection its sender. The client chooses the sub
id, and signs only the nonce and its name. -/

set_option autoImplicit false

namespace PirateShip

structure HandshakeResponse where
  name : String
  signature : Bytes
  isReplyChannel : Bool
  clientSubId : Nat

def constructPayload (nonce : Nat) (name : String) : Bytes :=
  (toBeBytes nonce).drop 4 ++ name.toUTF8.toList

/-- A signature of the wrong length is replaced by a blank one. -/
def handshakeServer (primitives : Primitives) (keystore : KeyStore) (nonce : Nat) (response : HandshakeResponse) :
    Except String (String × Bool × Nat) :=
  let sig := if response.signature.length = signatureLength then response.signature
    else List.replicate signatureLength 0
  if (keystore.getPubkey response.name).isNone then .error ("unknown peer: " ++ response.name)
  else if !keystore.verify primitives response.name sig (constructPayload nonce response.name) then
    .error "invalid signature"
  else .ok (response.name, response.isReplyChannel, response.clientSubId)

def handleAuth (primitives : Primitives) (keystore : KeyStore) (doAuth : Bool) (nonce : Nat)
    (response : HandshakeResponse) : Except String (SenderType × Bool × Nat) :=
  if doAuth then
    match handshakeServer primitives keystore nonce response with
    | .error e => .error e
    | .ok (name, replyChan, clientSubId) => .ok (.auth name clientSubId, replyChan, clientSubId)
  else .ok (.anon, false, 0)

def Authenticated (primitives : Primitives) (keystore : KeyStore) (sender : SenderType) : Prop :=
  ∃ nonce response replyChan clientSubId,
    handleAuth primitives keystore true nonce response = .ok (sender, replyChan, clientSubId)

theorem authenticated_of_sign {primitives keystore name verifyingKey}
    (known : keystore.getPubkey name = some verifyingKey) (key nonce)
    (length : (primitives.sign key (constructPayload nonce name)).length = signatureLength)
    (valid : primitives.verify verifyingKey (constructPayload nonce name)
      (primitives.sign key (constructPayload nonce name)) = true) (clientSubId) :
    Authenticated primitives keystore (.auth name clientSubId) := by
  refine ⟨nonce, ⟨name, primitives.sign key (constructPayload nonce name), false, clientSubId⟩,
    false, clientSubId, ?_⟩
  simp [handleAuth, handshakeServer, known, length, KeyStore.verify, valid]

end PirateShip
