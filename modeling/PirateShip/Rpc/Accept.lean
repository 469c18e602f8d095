import PirateShip.Crypto.Accepted
import PirateShip.Rpc.Server

/-! The accept loop of the server. It does the handshakes of a connection itself,
and the first one that fails ends it. -/

set_option autoImplicit false

namespace PirateShip

def SenderType.toString : SenderType → String
  | .anon => "Anon"
  | .auth name clientSubId => name ++ "#" ++ ToString.toString clientSubId

/-- A connection that a peer opens: how the TLS handshake ends, the nonce that the
server draws, and what is read as the answer to it. An empty, cut off or
undecodable answer is an error. -/
structure Incoming where
  stream : Nat
  tls : Except String Unit
  nonce : Nat
  answer : Except String HandshakeResponse

def Incoming.handshake (primitives : Primitives) (keystore : KeyStore) (incoming : Incoming) :
    Except String (SenderType × Bool × Nat) := do
  incoming.tls
  let response ← incoming.answer
  handleAuth primitives keystore true incoming.nonce response

inductive ConnectionOutcome where
  | handled (streamOut : Option Nat) (sender : SenderType)
  | parked (sender : SenderType)
  | dropped (error : String)
  | notAccepted
  deriving DecidableEq

/-- A connection is served when a task handles it, or when it waits for the main
connection of its client to use it for replies. -/
def ConnectionOutcome.ServedAs (outcome : ConnectionOutcome) (sender : SenderType) : Prop :=
  (∃ streamOut, outcome = .handled streamOut sender) ∨ outcome = .parked sender

structure AcceptLoop where
  running : Bool := true
  parkedStreams : HashMap String Nat := ∅

namespace AcceptLoop

variable (primitives : Primitives) (keystore : KeyStore)

def accept (loop : AcceptLoop) (incoming : Incoming) : AcceptLoop × ConnectionOutcome :=
  if !loop.running then (loop, .notAccepted)
  else
    match incoming.handshake primitives keystore with
    -- The error leaves the loop.
    | .error e => ({ loop with running := false }, .dropped e)
    | .ok (sender, isReplyChan, clientSubId) =>
      let mapName := sender.toString ++ "#" ++ ToString.toString clientSubId
      if isReplyChan then
        ({ loop with parkedStreams := loop.parkedStreams.insert mapName incoming.stream }, .parked sender)
      else
        ({ loop with parkedStreams := loop.parkedStreams.erase mapName },
          .handled (loop.parkedStreams.lookup mapName) sender)

def run (sequence : List Incoming) : AcceptLoop :=
  sequence.foldl (fun loop incoming => (loop.accept primitives keystore incoming).1) {}

end AcceptLoop

/-- The handshakes go through, and the key of the name signed nonce and name. -/
structure Incoming.Valid (primitives : Primitives) (keystore : KeyStore) (incoming : Incoming)
    (response : HandshakeResponse) : Prop where
  tls : incoming.tls = .ok ()
  answer : incoming.answer = .ok response
  length : response.signature.length = signatureLength
  signed : ∃ key, keystore.getPubkey response.name = some key ∧
    primitives.verify key (constructPayload incoming.nonce response.name) response.signature = true

def ServesValid (primitives : Primitives) (keystore : KeyStore) (sequence : List Incoming) : Prop :=
  ∀ before incoming response, before ++ [incoming] <+: sequence → incoming.Valid primitives keystore response →
    ((AcceptLoop.run primitives keystore before).accept primitives keystore incoming).2.ServedAs
      (.auth response.name response.clientSubId)

theorem Incoming.Valid.handshake {primitives : Primitives} {keystore : KeyStore} {incoming : Incoming}
    {response : HandshakeResponse} (valid : incoming.Valid primitives keystore response) :
    incoming.handshake primitives keystore = .ok
      (.auth response.name response.clientSubId, response.isReplyChannel, response.clientSubId) := by
  obtain ⟨_, known, verified⟩ := valid.signed
  simp [Incoming.handshake, valid.tls, valid.answer, handleAuth, handshakeServer, known, valid.length,
    KeyStore.verify, verified, bind, Except.bind]

namespace AcceptLoop

variable {primitives : Primitives} {keystore : KeyStore}

theorem accept_running (loop : AcceptLoop) (incoming : Incoming) :
    (loop.accept primitives keystore incoming).1.running = true ↔
      loop.running = true ∧ (incoming.handshake primitives keystore).isOk = true := by
  unfold accept
  cases stopped : loop.running with
  | false => simp [stopped]
  | true =>
    cases outcome : incoming.handshake primitives keystore with
    | error e => simp [Except.toBool]
    | ok result =>
      cases reply : result.2.1 <;> simp [Except.toBool, reply]

theorem running_run (sequence) : (run primitives keystore sequence).running = true ↔
      ∀ incoming ∈ sequence, (incoming.handshake primitives keystore).isOk = true := by
  induction sequence using List.reverseRecOn with
  | nil => simp [run]
  | append_singleton sequence incoming ih =>
    have last : run primitives keystore (sequence ++ [incoming]) =
        ((run primitives keystore sequence).accept primitives keystore incoming).1 := by
      simp [run]
    rw [last, accept_running, ih, List.forall_mem_append, List.forall_mem_singleton]

theorem servedAs_accept_iff (loop : AcceptLoop) {incoming response}
    (valid : incoming.Valid primitives keystore response) :
    (loop.accept primitives keystore incoming).2.ServedAs (.auth response.name response.clientSubId) ↔
      loop.running = true := by
  unfold accept
  cases stopped : loop.running with
  | false => simp [ConnectionOutcome.ServedAs]
  | true =>
    rw [valid.handshake]
    cases reply : response.isReplyChannel <;> simp [ConnectionOutcome.ServedAs]

end AcceptLoop

theorem tinyPrimitives_sign (key data) : (tinyPrimitives.sign key data).length = signatureLength ∧
      tinyPrimitives.verify key data (tinyPrimitives.sign key data) = true := by
  constructor
  · simp only [tinyPrimitives, List.length_take, List.length_append, defaultHash, List.length_replicate,
      signatureLength, digestLength]
    omega
  · exact beq_self_eq_true _

/-- A failed TLS handshake, and then a peer with a good signature. -/
theorem not_servesValid_of_failed_tls :
    ¬ ServesValid tinyPrimitives tinyKeys
      [⟨0, .error "tls handshake eof", 0, .error "unexpected eof"⟩,
        ⟨1, .ok (), 7, .ok ⟨"node2", tinyPrimitives.sign [2] (constructPayload 7 "node2"), false, 0⟩⟩] := by
  intro serves
  obtain ⟨length, verified⟩ := tinyPrimitives_sign [2] (constructPayload 7 "node2")
  have valid : Incoming.Valid tinyPrimitives tinyKeys
      ⟨1, .ok (), 7, .ok ⟨"node2", tinyPrimitives.sign [2] (constructPayload 7 "node2"), false, 0⟩⟩
      ⟨"node2", tinyPrimitives.sign [2] (constructPayload 7 "node2"), false, 0⟩ :=
    ⟨rfl, rfl, length, [2], by decide, verified⟩
  have served := serves [⟨0, .error "tls handshake eof", 0, .error "unexpected eof"⟩] _ _ (List.prefix_refl _) valid
  have running := (AcceptLoop.servedAs_accept_iff _ valid).mp served
  exact absurd running (by decide)

/-- The server serves the valid connections of a sequence exactly if no
connection before one of them fails in its handshakes. -/
theorem servesValid_iff (primitives : Primitives) (keystore : KeyStore) (sequence : List Incoming) :
    ServesValid primitives keystore sequence ↔
      ∀ before incoming response, before ++ [incoming] <+: sequence →
        incoming.Valid primitives keystore response →
          ∀ earlier ∈ before, (earlier.handshake primitives keystore).isOk = true := by
  constructor
  · intro serves before incoming response initial valid
    have served := serves before incoming response initial valid
    exact (AcceptLoop.running_run before).mp ((AcceptLoop.servedAs_accept_iff _ valid).mp served)
  · intro succeed before incoming response initial valid
    refine (AcceptLoop.servedAs_accept_iff _ valid).mpr ?_
    exact (AcceptLoop.running_run before).mpr (succeed before incoming response initial valid)

end PirateShip
