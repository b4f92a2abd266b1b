import ConcordBft.Execution.HandlerSpec
import ConcordBft.Execution.Requests

/-!
# From a client request to its execution

The model of `ReplicaImp::onMessage<ClientRequestMsg>`, of `executeReadOnlyRequest`, and of the way
a request becomes an `ExecutionRequest`: alone when it is read-only, or as a part of a committed
PrePrepare message, by `executeRequests`, `executeRequestsAndSendResponses` (which build the same)
and `executeSpecialRequests`.
-/

namespace ConcordBft

open Verif Verif.Exec

/-! ## Messages from the network -/

def ClientRequestMsg.isReadOnly (req : ClientRequestMsg) : Bool :=
  MsgFlag.has req.header.flags MsgFlag.READ_ONLY_FLAG

/-- What `onMessage<ClientRequestMsg>` reads of the replica. -/
structure ClientGate extends PrincipalsInfo where
  exchanged : Bool
  clientKeysPublished : Bool
  isIdOfClientProxy : UInt16 → Bool
  isValidClient : UInt16 → Bool
  isCurrentPrimary : Bool
  activeExecutions : ℕ
  deferredRORequests : ℕ
  maxQueueSize : ℕ
  /-- `isSeqNumToStopAt` for the next sequence number of the primary. -/
  primaryStops : Bool
  /-- `isSeqNumToStopAt` for the next sequence number to execute. -/
  executionStops : Bool
  currentViewIsActive : Bool
  isReplyAlreadySentToClient : UInt16 → UInt64 → Bool
  requestsQueueOfPrimary : ℕ
  maxPrimaryQueueSize : ℕ
  canBecomePending : UInt16 → UInt64 → Bool
  isPending : UInt16 → UInt64 → Bool

inductive Admission
  | dropped
  | reportedInvalid
  | deferredReadOnly
  | executedReadOnly
  | queuedByPrimary
  | forwardedAndPending
  | forwardedAgain
  | answered
  deriving DecidableEq

def ClientGate.onClientRequest (g : ClientGate) (senderId : UInt16) (req : ClientRequestMsg) :
    Admission :=
  let clientId := req.clientProxyId
  let flags := req.header.flags
  if (!g.exchanged || (!g.clientKeysPublished && g.isIdOfClientProxy senderId)) &&
      !MsgFlag.has flags MsgFlag.KEY_EXCHANGE_FLAG &&
      !MsgFlag.has flags MsgFlag.CLIENTS_PUB_KEYS_FLAG then .dropped
  else if !g.isValidClient clientId &&
      !((g.isIdOfReplica clientId || g.isIdOfPeerRoReplica clientId) && req.isInternal) then
    .reportedInvalid
  else if !req.isInternal && g.isIdOfReplica senderId && !g.isCurrentPrimary then .reportedInvalid
  else if req.isReadOnly then
    if 0 < g.activeExecutions then
      if g.deferredRORequests < g.maxQueueSize then .deferredReadOnly else .dropped
    else .executedReadOnly
  else if (g.isCurrentPrimary && g.primaryStops) || g.executionStops then .dropped
  else if !g.currentViewIsActive then .dropped
  else if g.isReplyAlreadySentToClient clientId req.requestSeqNum then .answered
  else if g.isCurrentPrimary then
    if g.maxPrimaryQueueSize ≤ g.requestsQueueOfPrimary then .dropped
    else if g.canBecomePending clientId req.requestSeqNum then .queuedByPrimary else .dropped
  else if g.canBecomePending clientId req.requestSeqNum then .forwardedAndPending
  else if g.isPending clientId req.requestSeqNum then .forwardedAgain
  else .dropped

/-! ## Execution requests -/

/-- `maxReplyMessageSize - sizeof(ClientReplyMsgHeader)` is computed in 64 bits. -/
def replyLength (maxReplyMessageSize : UInt32) : ℕ :=
  (maxReplyMessageSize.toNat + 2 ^ 64 - 28) % 2 ^ 64

namespace ClientRequestMsg

variable (req : ClientRequestMsg)

def executionRequest (executionSequenceNum : UInt64) (maxReplySize replyCapacity : ℕ) :
    ExecutionRequest where
  executionSequenceNum := executionSequenceNum
  flags := req.header.flags
  request := req.requestBuf
  maxReplySize := maxReplySize
  replyCapacity := replyCapacity
  outExecutionStatus := req.header.result.toNat
  outActualReplySize := 0
  outReplicaSpecificInfoSize := 0
  blockId := 0

/-- As `executeReadOnlyRequest` builds it. -/
def readOnlyRequest (lastExecutedSeqNum : UInt64) (maxReplyLength : ℕ) : ExecutionRequest :=
  req.executionRequest lastExecutedSeqNum maxReplyLength maxReplyLength

end ClientRequestMsg

variable {n : ℕ} {κ α ρ : Type}

/-- `executeReadOnlyRequest`, up to the reply. -/
def HandlerEnv.executeReadOnlyRequest (env : HandlerEnv n κ α ρ) (s : HandlerState n κ α)
    (isCollectingState : Bool) (lastExecutedSeqNum : UInt64) (maxReplyLength now : ℕ)
    (req : ClientRequestMsg) : HandlerState n κ α × Exec (List ExecutionRequest) :=
  if !req.isReadOnly || isCollectingState then (s, .error .assertion)
  else env.execute s none now [req.readOnlyRequest lastExecutedSeqNum maxReplyLength]

end ConcordBft
