import PirateShip.Proto

/-! The log server: its copy of the log, the read cache for what was garbage
collected, and the answers it gives. `none` is a panic, or a walk through
storage that does not end. -/

set_option autoImplicit false

namespace PirateShip

/-- A `BTreeMap` from sequence numbers to blocks, as its list of bindings in order. -/
structure ReadCache where
  cache : List (Nat × CachedBlock) := []
  workingSetSize : Nat := 100

namespace ReadCache

/-- The block, or else the cached block with the least number above it. -/
def get (readCache : ReadCache) (n : Nat) : Except (Option CachedBlock) CachedBlock :=
  match readCache.cache.find? fun binding => binding.1 == n with
  | some binding => .ok binding.2
  | none => .error ((readCache.cache.find? fun binding => decide (n ≤ binding.1)).map (·.2))

def insert (cache : List (Nat × CachedBlock)) (block : CachedBlock) : List (Nat × CachedBlock) :=
  (cache.filter fun binding => decide (binding.1 < block.block.n)) ++ [(block.block.n, block)] ++
    cache.filter fun binding => decide (block.block.n < binding.1)

/-- A full cache makes room for newer blocks only. -/
def put (readCache : ReadCache) (block : CachedBlock) : ReadCache :=
  if readCache.workingSetSize ≤ readCache.cache.length then
    match readCache.cache with
    | [] => { readCache with cache := insert [] block }
    | oldest :: rest =>
      if block.block.n < oldest.1 then readCache
      else { readCache with cache := insert rest block }
  else { readCache with cache := insert readCache.cache block }

end ReadCache

structure LogServer where
  bci : Nat := 0
  log : List CachedBlock := []
  readCache : ReadCache := {}
  client : List (String × ProtoPayload) := []

/-- What storage returns for a hash. -/
abbrev BlockStore := HashType → Option CachedBlock

namespace LogServer

def lastN (server : LogServer) : Nat := (server.log.getLast?.map (·.block.n)).getD 0

/-!
## Commands
-/

/-- Only the next block of the chain is appended. -/
def handleNewBlock (server : LogServer) (block : CachedBlock) : LogServer :=
  if block.block.n ≠ server.lastN + 1 then server
  else if 0 < server.lastN ∧ server.log.getLast?.map (·.blockHash) ≠ some block.block.parent then server
  else { server with log := server.log ++ [block] }

/-- A rollback into the committed part is raised to one block above it. -/
def handleRollback (server : LogServer) (n : Nat) : LogServer :=
  let n := if n ≤ server.bci then server.bci + 1 else n
  { server with
    log := server.log.filter fun block => decide (block.block.n ≤ n)
    readCache := { server.readCache with
      cache := server.readCache.cache.filter fun binding => decide (binding.1 ≤ n) } }

def handleCommand (server : LogServer) : LogServerCommand → LogServer
  | .newBlock block => server.handleNewBlock block
  | .rollback n => server.handleRollback n
  | .updateBCI n => { server with bci := n }

def handleGc (server : LogServer) (n : Nat) : LogServer :=
  { server with log := server.log.filter fun block => decide (n < block.block.n) }

/-- What changes the log: commands of the staging stage, and garbage collection. -/
inductive Input where
  | command (cmd : LogServerCommand)
  | gc (n : Nat)

def handle (server : LogServer) : Input → LogServer
  | .command cmd => server.handleCommand cmd
  | .gc n => server.handleGc n

/-!
## Blocks and forks
-/

/-- Walk back from a block through storage, filling the cache. -/
def walkBack (store : BlockStore) (n : Nat) :
    Nat → CachedBlock → ReadCache → Option (CachedBlock × ReadCache)
  | 0, block, readCache => if n < block.block.n then none else some (block, readCache)
  | fuel + 1, block, readCache =>
    if n < block.block.n then
      match store block.block.parent with
      | none => none
      | some parent => walkBack store n fuel parent (readCache.put parent)
    else some (block, readCache)

/-- The inner `none` means that the block is not below the log. -/
def getGcedBlock (store : BlockStore) (server : LogServer) (n : Nat) :
    Option (Option CachedBlock × LogServer) :=
  match server.log.head? with
  | none => some (none, server)
  | some first =>
    if first.block.n ≤ n then some (none, server)
    else
      match server.readCache.get n with
      | .ok block => some (some block, server)
      | .error above =>
        let start := above.getD first
        (walkBack store n start.block.n start server.readCache).map fun (block, readCache) =>
          (some block, { server with readCache })

def getBlock (store : BlockStore) (server : LogServer) (n : Nat) :
    Option (Option CachedBlock × LogServer) :=
  match server.log.head?, server.log.getLast? with
  | some first, some last =>
    if n = 0 ∨ last.block.n < n then some (none, server)
    else if n < first.block.n then getGcedBlock store server n
    else some (server.log.find? fun block => block.block.n == n, server)
  | _, _ => some (none, server)

/-- `LogServerQuery::CheckHash`. -/
def checkHash (store : BlockStore) (server : LogServer) (n : Nat) (hash : HashType) :
    Option (Bool × LogServer) :=
  if n = 0 then some (true, server)
  else (getBlock store server n).map fun (found, server) =>
    ((found.map fun block => block.blockHash == hash).getD false, server)

/-- The loop of `GetHints`: ten steps of each length, then ten times longer ones. -/
def hintsFrom (store : BlockStore) (lastN : Nat) :
    Nat → LogServer → Nat → Nat → Nat → Option (List ProtoBlockHint × LogServer)
  | 0, server, _, _, _ => some ([], server)
  | fuel + 1, server, currN, currJump, used =>
    if lastN ≤ currN then some ([], server)
    else
      match getBlock store server currN with
      | none => none
      | some (none, server) => some ([], server)
      | some (some block, server) =>
        let next := if 10 ≤ used + 1 then (currJump * 10, 0) else (currJump, used + 1)
        (hintsFrom store lastN fuel server (currN + currJump) next.1 next.2).map fun (hints, server) =>
          ({ blockN := block.block.n, digest := block.blockHash } :: hints, server)

/-- `LogServerQuery::GetHints`. Every step goes up, so the log's length is enough of them. -/
def getHints (store : BlockStore) (server : LogServer) (lastNeededN : Nat) :
    Option (List ProtoBlockHint × LogServer) :=
  let lastN := server.lastN
  match hintsFrom store lastN lastN server (if lastNeededN = 0 then 1 else lastNeededN) 1000 0 with
  | none => none
  | some (hints, server) =>
    if lastN = 0 then some (hints, server)
    else
      match getBlock store server lastN with
      | some (some block, server) =>
        some (hints ++ [{ blockN := block.block.n, digest := block.blockHash }], server)
      | _ => none

/-- The last of several hints for one number counts. -/
def hintMatches (hints : List ProtoBlockHint) (n : Nat) (hash : HashType) : Bool :=
  ((hints.filter fun hint => hint.blockN == n).getLast?.map fun hint => hint.digest == hash).getD false

/-- The loop of `fill_fork`, downwards from the block after which `count` remain. -/
def fillDown (store : BlockStore) (hints : List ProtoBlockHint) (firstN : Nat) :
    Nat → LogServer → List CachedBlock → Option (List CachedBlock × LogServer)
  | 0, server, forkQueue => some (forkQueue, server)
  | count + 1, server, forkQueue =>
    match getBlock store server (firstN + count) with
    | none => none
    | some (none, server) => some (forkQueue, server)
    | some (some block, server) =>
      if hintMatches hints (firstN + count) block.blockHash then some (forkQueue, server)
      else fillDown store hints firstN count server (block :: forkQueue)

/-- An empty range is a panic. -/
def fillFork (store : BlockStore) (server : LogServer) (firstN lastN : Nat)
    (hints : List ProtoBlockHint) : Option (ProtoFork × LogServer) :=
  if lastN < firstN then none
  else (fillDown store hints firstN (lastN - firstN + 1) server []).map fun (blocks, server) =>
    ({ serializedBlocks := blocks.map (·.toHalfSerialized) }, server)

def BackfillOrigin.fork : BackfillOrigin → Option ProtoFork
  | .ae ae => ae.fork
  | .vc vc => vc.fork

/-- The message goes back with the fork replaced. -/
def refill (newFork : ProtoFork) : BackfillOrigin → ProtoPayload
  | .ae ae => .appendEntries { ae with fork := some newFork, isBackfillResponse := true }
  | .vc vc => .viewChange { vc with fork := some newFork }

def respondBackfill (store : BlockStore) (server : LogServer) (nack : ProtoBackfillNack) :
    Option LogServer :=
  match nack.origin with
  | none => some server
  | some origin =>
    match BackfillOrigin.fork origin with
    | none => some server
    | some existingFork =>
      let lastN := match existingFork.serializedBlocks.getLast? with
        | some block => block.n
        | none => server.lastN
      (fillFork store server nack.lastIndexNeeded lastN nack.hints).map fun (newFork, server) =>
        { server with client := server.client ++ [(nack.replyName, refill newFork origin)] }

end LogServer

end PirateShip
