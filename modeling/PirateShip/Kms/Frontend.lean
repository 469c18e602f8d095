import PirateShip.Contrib.Frontend

/-! The handlers of the key management service that register users, make key
pairs and hand out keys. A handler is the list of points where it waits for a
reply; `panicked` is an `expect` that fails. -/

set_option autoImplicit false

namespace PirateShip.Kms

open Contrib

/-- `PUBLIC_KEY_LENGTH` and `SECRET_KEY_LENGTH`. -/
def keyLength : Nat := 32

abbrev KeyBytes := { bytes : Bytes // bytes.length = keyLength }

/-- `try_into` of a vector. -/
def tryInto (bytes : Bytes) : Option KeyBytes :=
  if fits : bytes.length = keyLength then some ⟨bytes, fits⟩ else none

/-- What the handlers call of other crates: the password hash, the key
derivation of ed25519 and the encoding of the user list. -/
structure Crates where
  hash : Bytes → Bytes
  verifyingKey : KeyBytes → KeyBytes
  toVec : List String → Bytes
  fromSlice : Bytes → Option (List String)

def pubKey (username : String) : Bytes := bytesOf ("pub:" ++ username)

def privKey (username : String) : Bytes := bytesOf ("priv:" ++ username)

inductive HttpResponse where
  | created (message : String) (users : List String)
  | keyPair (message username : String) (publicKey privateKey : KeyBytes)
  | publicKeys (message : String) (publicKeys : List KeyBytes)
  | publicKey (message username : String) (publicKey : KeyBytes)
  | privateKey (message username : String) (privateKey : KeyBytes)
  | conflict (message : String)
  | notFound (message username : String)
  | unauthorized (message user : String)
  | failed (error : SendError)
  deriving DecidableEq, Repr

/-- A key pair is drawn when the request comes in. -/
inductive Phase where
  | registerCheck (username password : String)
  | registerCreate (username password : String)
  | registerList (username password : String)
  | registerUpdate (username password : String) (users : List String)
  | refreshCheck (username password : String) (signingKey : KeyBytes)
  | refreshStore (username : String) (signingKey : KeyBytes)
  | listUsers
  | listKey (username : String) (rest : List String) (publicKeys : List KeyBytes)
  | pubkeyRead (username : String)
  | privkeyCheck (username password : String)
  | privkeyRead (username : String)
  | answered (response : HttpResponse)
  | panicked
  deriving DecidableEq, Repr

inductive Request where
  | register (username password : String)
  | refresh (username password : String) (signingKey : KeyBytes)
  | listpubkeys
  | pubkey (username : String)
  | privkey (username password : String)
  deriving DecidableEq, Repr

namespace Request

def first : Request → Phase
  | .register username password => .registerCheck username password
  | .refresh username password signingKey => .refreshCheck username password signingKey
  | .listpubkeys => .listUsers
  | .pubkey username => .pubkeyRead username
  | .privkey username password => .privkeyCheck username password

end Request

/-- `authenticate_user` after its read. -/
def authenticateUser (crates : Crates) (username password : String) (result : Bytes) : Except HttpResponse Unit :=
  if result = [] then .error (.notFound "username does not exist" username)
  else if crates.hash (bytesOf password) ≠ result then .error (.unauthorized "incorrect password" username)
  else .ok ()

/-- The user list from the value that is stored. -/
def usersOf (crates : Crates) (result : Bytes) : Option (List String) :=
  if result = [] then some [] else crates.fromSlice result

/-- The loop of `listpubkeys`, from the keys it has. -/
def listKeys (publicKeys : List KeyBytes) : List String → Phase
  | [] => .answered (.publicKeys "public keys retrieved" publicKeys)
  | username :: rest => .listKey username rest publicKeys

namespace Phase

variable (crates : Crates)

/-- The key pair is named the other way around: `public_key` is the signing key. -/
def pending : Phase → Option Transaction
  | .registerCheck username _ => some { transactionOps := [readOp (bytesOf username)], isRead := true }
  | .registerCreate username password => some
    { transactionOps := [writeOp (bytesOf username) (crates.hash (bytesOf password))], isRead := false }
  | .registerList _ _ => some { transactionOps := [readOp (bytesOf "user")], isRead := true }
  | .registerUpdate _ _ users => some
    { transactionOps := [writeOp (bytesOf "user") (crates.toVec users), incrementOp (bytesOf "user_count")]
      isRead := false }
  | .refreshCheck username _ _ => some { transactionOps := [readOp (bytesOf username)], isRead := true }
  | .refreshStore username signingKey => some
    { transactionOps :=
        [writeOp (pubKey username) signingKey.val, writeOp (privKey username) (crates.verifyingKey signingKey).val]
      isRead := false }
  | .listUsers => some { transactionOps := [readOp (bytesOf "user")], isRead := true }
  | .listKey username _ _ => some { transactionOps := [readOp (pubKey username)], isRead := true }
  | .pubkeyRead username => some { transactionOps := [readOp (pubKey username)], isRead := true }
  | .privkeyCheck username _ => some { transactionOps := [readOp (bytesOf username)], isRead := true }
  | .privkeyRead username => some { transactionOps := [readOp (privKey username)], isRead := true }
  | .answered _ | .panicked => none

/-- From a result of `send` to the next transaction or the answer. -/
def onResult (result : Bytes) : Phase → Phase
  | .registerCheck username password =>
    if result ≠ [] then .answered (.conflict "username already exists") else .registerCreate username password
  | .registerCreate username password => .registerList username password
  | .registerList username password =>
    match usersOf crates result with
    | none => .panicked
    | some users => .registerUpdate username password (users ++ [username])
  | .registerUpdate _ _ users => .answered (.created "user created" users)
  | .refreshCheck username password signingKey =>
    match authenticateUser crates username password result with
    | .error response => .answered response
    | .ok _ => .refreshStore username signingKey
  | .refreshStore username signingKey =>
    .answered (.keyPair "created key pair for user" username signingKey (crates.verifyingKey signingKey))
  | .listUsers =>
    match usersOf crates result with
    | none => .panicked
    | some users => listKeys [] users
  | .listKey _ rest publicKeys =>
    match tryInto result with
    | none => .panicked
    | some publicKey => listKeys (publicKeys ++ [publicKey]) rest
  | .pubkeyRead username =>
    if result = [] then .answered (.notFound "public key could not be found" username)
    else match tryInto result with
      | none => .panicked
      | some publicKey => .answered (.publicKey "public key of user" username publicKey)
  | .privkeyCheck username password =>
    match authenticateUser crates username password result with
    | .error response => .answered response
    | .ok _ => .privkeyRead username
  | .privkeyRead username =>
    if result = [] then .answered (.notFound "private key could not be found" username)
    else match tryInto result with
      | none => .panicked
      | some privateKey => .answered (.privateKey "private key of user" username privateKey)
  | .answered response => .answered response
  | .panicked => .panicked

/-- `send` keeps the last value only. -/
def resume (phase : Phase) : Except SendError (List Bytes) → Phase
  | .error error => .answered (.failed error)
  | .ok values => phase.onResult crates (values.getLast?.getD [])

end Phase

structure Registration where
  id : Nat
  username : String
  password : String
  deriving DecidableEq, Repr

/-- `refreshed` has the signing keys that were stored, `published` and `disclosed`
the keys that `pubkey` and `privkey` answered, each with the number of key pairs
stored for the user by then. -/
structure Journal where
  created : List Registration := []
  listed : List Registration := []
  refreshed : List (String × KeyBytes) := []
  published : List (String × Nat × KeyBytes) := []
  disclosed : List (String × Nat × KeyBytes) := []

namespace Journal

/-- The signing keys stored for a user, in order. -/
def refreshes (journal : Journal) (username : String) : List KeyBytes :=
  (journal.refreshed.filter (·.1 = username)).map (·.2)

def executed (journal : Journal) (state : KVSState) (i : Nat) : Phase → Journal
  | .registerCreate username password => { journal with created := journal.created ++ [⟨i, username, password⟩] }
  | .registerUpdate username password _ => { journal with listed := journal.listed ++ [⟨i, username, password⟩] }
  | .refreshStore username signingKey => { journal with refreshed := journal.refreshed ++ [(username, signingKey)] }
  | .pubkeyRead username =>
    match (state.read (pubKey username)).bind tryInto with
    | none => journal
    | some key => { journal with
      published := journal.published ++ [(username, (journal.refreshes username).length, key)] }
  | .privkeyRead username =>
    match (state.read (privKey username)).bind tryInto with
    | none => journal
    | some key => { journal with
      disclosed := journal.disclosed ++ [(username, (journal.refreshes username).length, key)] }
  | _ => journal

end Journal

def frontend (crates : Crates) : Frontend Phase Journal where
  pending := Phase.pending crates
  resume := Phase.resume crates
  executed := Journal.executed
  arrived journal _ _ := journal

/-- Requests before any of them is served, over an empty store. -/
def start (requests : List Request) : System Phase Journal where
  tasks := requests.map fun request => .waiting request.first
  journal := {}

end PirateShip.Kms
