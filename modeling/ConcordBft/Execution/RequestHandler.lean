import ConcordBft.Keys.KeyExchange
import ConcordBft.Messages.PrePrepare

/-!
# The built-in request handler

The model of `RequestHandler::execute`, with the payloads it deserializes, the store of the
clients' keys and the part of `DbCheckpointManager` that requests change. The application, the
reconfiguration handlers and the cron tables are parameters. A reply buffer is its capacity; what
is written is kept only as far as it decides the size of the reply.

An assertion, an exception or a write outside the reply buffer does not undo what was done before
it, so every handler gives the state that it leaves behind and, apart from it, its outcome.

A payload that ends too early leaves fields of `KeyExchangeMsg` as they are in memory; what is
read there is a parameter. `algorithm` comes last and is only logged. A payload that names another
class makes the source throw or dereference a null pointer.
-/

namespace ConcordBft

open Verif Verif.Exec

namespace MsgFlag

def READ_ONLY_FLAG : UInt64 := 0x1
def TICK_FLAG : UInt64 := 0x10
def PUBLISH_ON_CHAIN_OBJECT_FLAG : UInt64 := 0x80
def DB_CHECKPOINT_FLAG : UInt64 := 0x200

end MsgFlag

/-! ## Payloads -/

/-- The next `k` bytes of a stream. -/
def takeBytes (fault : Fault) (k : ℕ) (bytes : List UInt8) : Exec (List UInt8 × List UInt8) :=
  if bytes.length < k then .error fault else .ok (bytes.take k, bytes.drop k)

variable (bytes : List UInt8)

namespace KeyExchangeMsg

/-- An integer in the memory of the machine. -/
def readNat (k : ℕ) (bytes : List UInt8) : Exec (ℕ × List UInt8) := do
  let (b, rest) ← takeBytes .access k bytes
  return (leNat b, rest)

def readString : Exec (List UInt8 × List UInt8) := do
  let (length, rest) ← readNat 8 bytes
  takeBytes .access length rest

/-- `KeyExchangeMsg`, the name under which the class is registered. -/
def className : List UInt8 := [75, 101, 121, 69, 120, 99, 104, 97, 110, 103, 101, 77, 115, 103]

def version : List UInt8 := [50]

def deserializeMsg : Exec KeyExchangeMsg := do
  let (name, rest) ← readString bytes
  if name ≠ className then throw .exception
  let (ver, rest) ← readString rest
  if ver ≠ version then throw .exception
  let (op, rest) ← readNat 1 rest
  let (pubkey, rest) ← readString rest
  let (repID, rest) ← readNat 2 rest
  let (generatedSn, rest) ← readNat 8 rest
  let (epoch, _) ← readNat 8 rest
  return ⟨UInt8.ofNat op, pubkey, UInt16.ofNat repID, UInt64.ofNat generatedSn, UInt64.ofNat epoch⟩

end KeyExchangeMsg

namespace Cmf

/-- The number that bytes stand for in big-endian order. -/
def beNat : ℕ := bytes.foldl (fun acc b => acc * 256 + b.toNat) 0

def readNat (k : ℕ) (bytes : List UInt8) : Exec (ℕ × List UInt8) := do
  let (b, rest) ← takeBytes .exception k bytes
  return (beNat b, rest)

def readBool : Exec (Bool × List UInt8) := do
  let (b, rest) ← readNat 1 bytes
  if 1 < b then throw .exception
  return (decide (b = 1), rest)

def readBytes : Exec (List UInt8 × List UInt8) := do
  let (length, rest) ← readNat 4 bytes
  takeBytes .exception length rest

end Cmf

structure CreateDbCheckpoint where
  seqNum : UInt64
  noop : Bool
  deriving DecidableEq

def CreateDbCheckpoint.deserialize : Exec CreateDbCheckpoint := do
  let (_sender, rest) ← Cmf.readNat 8 bytes
  let (seqNum, rest) ← Cmf.readNat 8 rest
  let (noop, rest) ← Cmf.readBool rest
  let _signature ← Cmf.readBytes rest
  return ⟨UInt64.ofNat seqNum, noop⟩

/-- The component of a `ClientReqMsgTickPayload`. -/
def deserializeTick : Exec UInt32 := do
  let (component, _) ← Cmf.readNat 4 bytes
  return UInt32.ofNat component

/-! ## What requests change -/

/-- The digest of the clients' keys in its reserved page. -/
structure ClientKeyStore where
  page : Option (List UInt8)
  published : Bool
  deriving DecidableEq

structure DbCheckpointManager where
  lastCheckpointSeqNum : ℤ
  lastCmdSeqNum : ℤ
  lastCmdTimestamp : ℕ
  /-- What `checkpointInProcessCb_` was called with last. -/
  checkpointInProcess : Bool × ℕ
  /-- The callback for a stable sequence number: the sequence number, the time of the request and
  the block. -/
  onStableSeqNumCb : Option (UInt64 × Option ℕ × ℕ)
  /-- The blocks in `dbCreateCheckPtFuture_`. -/
  dbCreateCheckPtFuture : List ℕ
  deriving DecidableEq

structure HandlerState (n : ℕ) (κ α : Type) where
  keys : KeyExchangeManager n
  clientKeys : ClientKeyStore
  dbCheckpoint : DbCheckpointManager
  cron : κ
  app : α

/-- `IRequestsHandler::ExecutionRequest`, as far as the handler uses it. -/
structure ExecutionRequest where
  executionSequenceNum : UInt64
  flags : UInt64
  /-- The `requestSize` bytes at `request`. -/
  request : List UInt8
  maxReplySize : ℕ
  /-- The bytes that were allocated for `outReply`. -/
  replyCapacity : ℕ
  outExecutionStatus : ℕ
  outActualReplySize : ℕ
  outReplicaSpecificInfoSize : ℕ
  blockId : ℕ
  deriving DecidableEq

namespace OperationResult

def SUCCESS : ℕ := 0
def UNKNOWN : ℕ := 1
def INTERNAL_ERROR : ℕ := 10

end OperationResult

/-- What the handler uses and does not define. -/
structure HandlerEnv (n : ℕ) (κ α ρ : Type) where
  keyConfig : KeyExchangeConfig n
  /-- What a payload that ends too early is read as. -/
  deserializeShort : List UInt8 → Exec KeyExchangeMsg
  clientsPublicKeys : List UInt8
  digest : DigestGenerator
  /-- The deserialization of a `ReconfigurationRequest`, `none` for an exception. -/
  deserializeReconfiguration : List UInt8 → Option ρ
  isPruneRequest : ρ → Bool
  /-- `Dispatcher::dispatch`, with the serialized response and its part for read-only requests. -/
  dispatch : HandlerState n κ α → ρ → UInt64 → HandlerState n κ α × List UInt8 × List UInt8
  /-- No reconfiguration handler stores keys of replicas: `publicKeys_` is private to the manager
  and written by `onKeyExchange` and the load after state transfer only. -/
  dispatch_publicKeys : ∀ s rreq sn, (dispatch s rreq sn).1.keys.publicKeys = s.keys.publicKeys
  /-- The evaluation of a tick, if the cron table registry is there. -/
  evaluate : Option (κ → UInt32 → UInt64 → κ)
  lastStableSeqNum : α → ℤ
  lastReachableBlock : α → ℕ
  maxNumberOfDbCheckpoints : ℕ
  /-- The application's handler, if there is one. -/
  userExecute : α → List ExecutionRequest → α × List ExecutionRequest

variable {n : ℕ} {κ α ρ : Type}

namespace DbCheckpointManager

variable (d : DbCheckpointManager)

def setCheckpointInProcess (flag : Bool) (blockId : ℕ) : DbCheckpointManager :=
  { d with checkpointInProcess := (flag, blockId) }

/-- `createDbCheckpointAsync` with the clock `now`, and without a block. -/
def createDbCheckpointAsync (maxNumberOfDbCheckpoints lastBlockId now : ℕ) (seqNum : ℤ)
    (timestamp : Option ℕ) : DbCheckpointManager :=
  if seqNum ≤ d.lastCheckpointSeqNum then d
  else
    let d := { d with lastCmdSeqNum := seqNum, lastCmdTimestamp := timestamp.getD now }
    if maxNumberOfDbCheckpoints = 0 then d
    else if lastBlockId = 0 then d
    else if lastBlockId ∈ d.dbCreateCheckPtFuture then d
    else { d.setCheckpointInProcess true lastBlockId with
      dbCreateCheckPtFuture := lastBlockId :: d.dbCreateCheckPtFuture }

def onCreateDbCheckpoint (lastStableSeqNum : ℤ) (maxNumberOfDbCheckpoints lastBlockId now : ℕ)
    (msg : CreateDbCheckpoint) (timestamp : Option ℕ) : DbCheckpointManager :=
  if msg.noop then d
  else if lastStableSeqNum = toSeqNum msg.seqNum then
    d.createDbCheckpointAsync maxNumberOfDbCheckpoints lastBlockId now (toSeqNum msg.seqNum)
      timestamp
  else { d.setCheckpointInProcess true lastBlockId with
    onStableSeqNumCb := some (msg.seqNum, timestamp, lastBlockId) }

end DbCheckpointManager

/-- `ClientKeyStore::save`: the digest goes to the reserved page. -/
def ClientKeyStore.save (sizeOfReservedPage : ℕ) (digest : DigestGenerator) (keys : List UInt8) :
    Exec ClientKeyStore := do
  ensure (decide ((digest.compute keys).length ≤ sizeOfReservedPage))
  return ⟨some (digest.compute keys), true⟩

def ClientKeyStore.onPublishClientsKeys (store : ClientKeyStore) (sizeOfReservedPage : ℕ)
    (digest : DigestGenerator) (keys : List UInt8) (bootstrapKeys : Option (List UInt8)) :
    Exec ClientKeyStore :=
  match bootstrapKeys with
  | some bootstrap => do
    ensure (keys == bootstrap)
    if store.published then return store
    ClientKeyStore.save sizeOfReservedPage digest keys
  | none => ClientKeyStore.save sizeOfReservedPage digest keys

/-! ## The loop over the requests -/

namespace ExecutionRequest

variable (req : ExecutionRequest)

def has (flag : UInt64) : Bool := MsgFlag.has req.flags flag

def copyReply (size : ℕ) : Exec ExecutionRequest :=
  if size ≤ req.replyCapacity then .ok { req with outActualReplySize := size }
  else .error .buffer

/-- A reply that may be too large is dropped. -/
def reply (size : ℕ) : Exec ExecutionRequest :=
  if size ≤ req.maxReplySize then req.copyReply size
  else .ok { req with outActualReplySize := 0 }

def succeed : ExecutionRequest := { req with outExecutionStatus := OperationResult.SUCCESS }

end ExecutionRequest

namespace HandlerEnv

variable (env : HandlerEnv n κ α ρ) (s : HandlerState n κ α) (req : ExecutionRequest)

def deserializeMsg (bytes : List UInt8) : Exec KeyExchangeMsg :=
  match KeyExchangeMsg.deserializeMsg bytes with
  | .error .access => env.deserializeShort bytes
  | r => r

def onKeyExchange : HandlerState n κ α × Exec ExecutionRequest :=
  match env.deserializeMsg req.request with
  | .error fault => (s, .error fault)
  | .ok ke =>
    ({ s with keys := s.keys.leaves env.keyConfig ke req.executionSequenceNum }, do
      let (resp, _) ← s.keys.onKeyExchange env.keyConfig ke req.executionSequenceNum
      let req ← req.reply resp.text.utf8ByteSize
      return req.succeed)

/-- The outcome has whether the request is a request to prune. -/
def onReconfiguration : HandlerState n κ α × Exec (ExecutionRequest × Bool) :=
  match env.deserializeReconfiguration req.request with
  | none => (s, .error .exception)
  | some rreq =>
    let (s, response, readOnlyResponse) := env.dispatch s rreq req.executionSequenceNum
    (s, do
      let req ←
        if req.has MsgFlag.READ_ONLY_FLAG then do
          let sent ← req.reply (readOnlyResponse.length + response.length)
          if readOnlyResponse.length + response.length ≤ req.maxReplySize then
            pure { sent with outReplicaSpecificInfoSize := response.length }
          else pure sent
        else req.reply response.length
      return (req.succeed, env.isPruneRequest rreq))

def onTick : HandlerState n κ α × Exec ExecutionRequest :=
  match req.copyReply 1 with
  | .error fault => (s, .error fault)
  | .ok req =>
    let req := { req with outReplicaSpecificInfoSize := 0 }
    if req.has MsgFlag.READ_ONLY_FLAG then
      (s, .ok { req with outExecutionStatus := OperationResult.UNKNOWN })
    else match env.evaluate with
      | none => (s, .ok { req with outExecutionStatus := OperationResult.INTERNAL_ERROR })
      | some evaluate =>
        match deserializeTick req.request with
        | .error fault => (s, .error fault)
        | .ok component =>
          ({ s with cron := evaluate s.cron component req.executionSequenceNum }, .ok req.succeed)

variable (timestamp : Option ℕ)

def onDbCheckpoint (now : ℕ) : HandlerState n κ α × Exec ExecutionRequest :=
  match CreateDbCheckpoint.deserialize req.request with
  | .error fault => (s, .error fault)
  | .ok msg =>
    ({ s with
      dbCheckpoint := s.dbCheckpoint.onCreateDbCheckpoint (env.lastStableSeqNum s.app)
        env.maxNumberOfDbCheckpoints (env.lastReachableBlock s.app) now msg timestamp },
      ExecutionRequest.succeed <$> req.copyReply 1)

def onClientsKeys : HandlerState n κ α × Exec ExecutionRequest :=
  let bootstrapKeys :=
    if req.has MsgFlag.PUBLISH_ON_CHAIN_OBJECT_FLAG then some env.clientsPublicKeys else none
  match s.clientKeys.onPublishClientsKeys env.keyConfig.sizeOfReservedPage env.digest req.request
      bootstrapKeys with
  | .error fault => (s, .error fault)
  | .ok clientKeys => ({ s with clientKeys := clientKeys }, ExecutionRequest.succeed <$> req.copyReply 1)

/-- One round of the loop. The flag says whether a request to prune was seen last. -/
def handleRequest (now : ℕ) (hasPruningRequest : Bool) :
    HandlerState n κ α × Exec (ExecutionRequest × Bool) :=
  let withFlag (r : HandlerState n κ α × Exec ExecutionRequest) :=
    (r.1, r.2.map fun req => (req, hasPruningRequest))
  if req.has MsgFlag.KEY_EXCHANGE_FLAG then withFlag (env.onKeyExchange s req)
  else if req.has MsgFlag.RECONFIG_FLAG then env.onReconfiguration s req
  else if req.has MsgFlag.TICK_FLAG then withFlag (env.onTick s req)
  else if req.has MsgFlag.DB_CHECKPOINT_FLAG then withFlag (env.onDbCheckpoint s req timestamp now)
  else
    let req :=
      if req.has MsgFlag.READ_ONLY_FLAG then { req with flags := MsgFlag.READ_ONLY_FLAG } else req
    if req.has MsgFlag.CLIENTS_PUB_KEYS_FLAG then withFlag (env.onClientsKeys s req)
    else
      (s, .ok (if hasPruningRequest then { req with outActualReplySize := 0 } else req,
        hasPruningRequest))

def handleRequests (timestamp : Option ℕ) (now : ℕ) :
    HandlerState n κ α → Bool → List ExecutionRequest →
      HandlerState n κ α × Exec (List ExecutionRequest × Bool)
  | s, hasPruningRequest, [] => (s, .ok ([], hasPruningRequest))
  | s, hasPruningRequest, req :: requests =>
    match env.handleRequest s req timestamp now hasPruningRequest with
    | (s, .error fault) => (s, .error fault)
    | (s, .ok (req, hasPruningRequest)) =>
      let (s, r) := handleRequests timestamp now s hasPruningRequest requests
      (s, r.map fun r => (req :: r.1, r.2))

def execute (now : ℕ) (requests : List ExecutionRequest) :
    HandlerState n κ α × Exec (List ExecutionRequest) :=
  match env.handleRequests timestamp now s false requests with
  | (s, .error fault) => (s, .error fault)
  | (s, .ok (requests, true)) => (s, .ok requests)
  | (s, .ok (requests, false)) =>
    let (app, requests) := env.userExecute s.app requests
    ({ s with app := app }, .ok requests)

end HandlerEnv

end ConcordBft
