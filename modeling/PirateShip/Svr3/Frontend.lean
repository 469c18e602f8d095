import PirateShip.Contrib.Frontend
import PirateShip.Smallbank.Frontend

/-! The handlers of the secret recovery service that register users and give out
tokens for a pin. The signature of a token and its time are left out. -/

set_option autoImplicit false

namespace PirateShip.Svr3

open Contrib
open Smallbank (i64FromBeBytes i64ToBeBytes)

def maxGuesses : Int := 1000000

/-- The pin hash and the encoding of the user list. -/
structure Crates where
  hash : Bytes → Bytes
  toVec : List String → Bytes
  fromSlice : Bytes → Option (List String)

def retriesKey (username : String) : Bytes := bytesOf ("retries:" ++ username)

def versionKey (username : String) : Bytes := bytesOf ("version:" ++ username)

/-- A value that is not eight bytes counts as 0. -/
def i64OrZero (bytes : Bytes) : Int := (i64FromBeBytes bytes).getD 0

structure GetTokenPayload where
  username : String
  pin : String
  incrementVersion : Bool
  deriving DecidableEq, Repr

inductive HttpResponse where
  | created (message : String) (users : List String)
  | token (username : String) (version : Nat)
  | conflict (message : String)
  | notFound (message user : String)
  | incorrect (message user : String)
  | unauthorized (message : String) (retries : Int)
  | failed (error : SendError)
  deriving DecidableEq, Repr

namespace HttpResponse

def status : HttpResponse → Nat
  | .created _ _ | .token _ _ => 200
  | .conflict _ => 409
  | .notFound _ _ => 404
  | .incorrect _ _ | .unauthorized _ _ => 401
  | .failed error => error.status

end HttpResponse

inductive Phase where
  | authCheck (username pin : String)
  | authCreate (username pin : String)
  | authList (username : String)
  | authUpdate (username : String) (users : List String)
  | tokenCheck (payload : GetTokenPayload)
  | tokenIncrement (payload : GetTokenPayload)
  | tokenRead (payload : GetTokenPayload)
  | tokenReset (payload : GetTokenPayload) (totalGuesses : Int)
  | tokenVersion (payload : GetTokenPayload)
  | answered (response : HttpResponse)
  | panicked
  deriving DecidableEq, Repr

inductive Request where
  | auth (username pin : String)
  | getToken (payload : GetTokenPayload)
  deriving DecidableEq, Repr

namespace Request

def first : Request → Phase
  | .auth username pin => .authCheck username pin
  | .getToken payload => .tokenCheck payload

end Request

/-- `authenticate_user` after its read. -/
def authenticateUser (crates : Crates) (username pin : String) : List Bytes → Except HttpResponse Unit
  | [] => .error (.notFound "username does not exist" username)
  | result :: _ =>
    if crates.hash (bytesOf pin) ≠ result then .error (.incorrect "incorrect pin" username) else .ok ()

/-- `as u32` of an `i64`. -/
def asU32 (value : Int) : Nat := (value % 2 ^ 32).toNat

namespace Phase

variable (crates : Crates)

def pending : Phase → Option Transaction
  | .authCheck username _ => some { transactionOps := [readOp (bytesOf username)], isRead := true }
  | .authCreate username pin => some
    { transactionOps := [writeOp (bytesOf username) (crates.hash (bytesOf pin))], isRead := false }
  | .authList _ => some { transactionOps := [readOp (bytesOf "user")], isRead := true }
  | .authUpdate _ users => some
    { transactionOps := [writeOp (bytesOf "user") (crates.toVec users)], isRead := false }
  | .tokenCheck payload => some { transactionOps := [readOp (bytesOf payload.username)], isRead := true }
  | .tokenIncrement payload => some
    { transactionOps := [incrementOp (retriesKey payload.username)], isRead := false }
  | .tokenRead payload => some { transactionOps := [readOp (retriesKey payload.username)], isRead := true }
  | .tokenReset payload totalGuesses => some
    { transactionOps := [casOp (retriesKey payload.username) (i64ToBeBytes 0) (i64ToBeBytes totalGuesses)]
      isRead := false }
  | .tokenVersion payload => some <|
    if payload.incrementVersion then
      { transactionOps := [incrementOp (versionKey payload.username)], isRead := false }
    else { transactionOps := [readOp (versionKey payload.username)], isRead := true }
  | .answered _ | .panicked => none

/-- A pin that could not be checked counts as a guess, unless the status is 404. -/
def onRefused (payload : GetTokenPayload) (response : HttpResponse) : Phase :=
  if response.status = 404 then .answered response else .tokenIncrement payload

/-- From the counter that was read to the reset, or to the answer of a locked user. -/
def onRetries (payload : GetTokenPayload) (totalGuesses : Int) : Phase :=
  if maxGuesses < totalGuesses then .answered (.unauthorized "too many guesses" totalGuesses)
  else .tokenReset payload totalGuesses

def onToken (payload : GetTokenPayload) : List Bytes → Phase
  | result :: _ => .answered (.token payload.username (asU32 (i64OrZero result)))
  | [] => if payload.incrementVersion then .panicked else .answered (.token payload.username 0)

/-- From the values that `send` returns. -/
def onValues (values : List Bytes) : Phase → Phase
  | .authCheck username pin =>
    if values ≠ [] then .answered (.conflict "username already exists") else .authCreate username pin
  | .authCreate username _ => .authList username
  | .authList username =>
    match values with
    | [] => .authUpdate username [username]
    | result :: _ =>
      match crates.fromSlice result with
      | none => .panicked
      | some users => .authUpdate username (users ++ [username])
  | .authUpdate _ users => .answered (.created "user created" users)
  | .tokenCheck payload =>
    match authenticateUser crates payload.username payload.pin values with
    | .error response => onRefused payload response
    | .ok _ => .tokenRead payload
  | .tokenIncrement _ =>
    match values with
    | [] => .panicked
    | result :: _ => .answered (.unauthorized "incorrect pin" (i64OrZero result))
  | .tokenRead payload => onRetries payload (i64OrZero (values.head?.getD (i64ToBeBytes 0)))
  | .tokenReset payload _ => .tokenVersion payload
  | .tokenVersion payload => onToken payload values
  | .answered response => .answered response
  | .panicked => .panicked

/-- The result of the reset is not looked at. -/
def resume (phase : Phase) : Except SendError (List Bytes) → Phase
  | .ok values => phase.onValues crates values
  | .error error =>
    match phase with
    | .tokenCheck payload => onRefused payload (.failed error)
    | .tokenReset payload _ => .tokenVersion payload
    | _ => .answered (.failed error)

end Phase

/-- `wrong` counts the pins of a user that were checked and wrong since the last
token, and `issued` has the tokens with the count they were issued at. -/
structure Journal where
  wrong : String → Nat := fun _ => 0
  issued : List (String × Nat) := []

namespace Journal

def setWrong (journal : Journal) (username : String) (count : Nat) : String → Nat :=
  fun other => if other = username then count else journal.wrong other

/-- The pin is compared with the stored one, and differs. -/
def WrongPin (crates : Crates) (state : KVSState) (payload : GetTokenPayload) : Prop :=
  ∃ stored ∈ state.read (bytesOf payload.username), crates.hash (bytesOf payload.pin) ≠ stored

instance (crates : Crates) (state : KVSState) (payload : GetTokenPayload) :
    Decidable (WrongPin crates state payload) :=
  inferInstanceAs (Decidable (∃ stored ∈ state.read (bytesOf payload.username), _ ≠ stored))

def executed (crates : Crates) (journal : Journal) (state : KVSState) (_ : Nat) : Phase → Journal
  | .tokenCheck payload =>
    if WrongPin crates state payload then
      { journal with wrong := journal.setWrong payload.username (journal.wrong payload.username + 1) }
    else journal
  | _ => journal

def arrived (journal : Journal) (_ : Nat) : Phase → Journal
  | .answered (.token username _) =>
    { wrong := journal.setWrong username 0, issued := journal.issued ++ [(username, journal.wrong username)] }
  | _ => journal

end Journal

def frontend (crates : Crates) : Frontend Phase Journal where
  pending := Phase.pending crates
  resume := Phase.resume crates
  executed := Journal.executed crates
  arrived := Journal.arrived

/-- Requests before any of them is served. -/
def start (engine : KVSAppEngine) (requests : List Request) : System Phase Journal where
  engine
  tasks := requests.map fun request => .waiting request.first
  journal := {}

end PirateShip.Svr3
