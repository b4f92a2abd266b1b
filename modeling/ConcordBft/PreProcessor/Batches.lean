import ConcordBft.PreProcessor.RequestProcessingState

/-!
# Batches of a client

The pre-processor keeps, for every external client, the slots of its ongoing requests and the
parameters of one batch. `PreProcessor.step` is the handling of one message, the end of one
pre-execution job, one round of the timer that looks for expired requests, or a change of what the
replica tells about its role. Messages are modelled as they are parsed, and what is sent is left
out. A lookup of a client that was not created at construction leaves a null pointer in the map,
which is followed at once.
-/

namespace ConcordBft

open Verif Verif.Exec

/-! ## Messages -/

abbrev Cid := List UInt8

inductive RequestType
  | REQ_TYPE_PRE_PROCESS
  | REQ_TYPE_CANCEL
  deriving DecidableEq

structure ClientPreProcessRequestMsg where
  clientProxyId : UInt16
  requestSeqNum : UInt64
  isReadOnly : Bool
  /-- Whether `validate` accepts the message. -/
  valid : Bool

structure ClientBatchRequestMsg where
  senderId : UInt16
  clientId : UInt16
  cid : Cid
  clientMsgs : List ClientPreProcessRequestMsg

structure PreProcessRequestMsg where
  reqType : RequestType
  senderId : UInt16
  clientId : UInt16
  reqOffsetInBatch : UInt16
  reqSeqNum : UInt64
  viewNum : UInt64
  /-- There is no signature of the client, or one that verifies. -/
  signatureVerified : Bool

/-- `elements` are the requests as they lie in the message. -/
structure PreProcessBatchRequestMsg where
  reqType : RequestType
  senderId : UInt16
  clientId : UInt16
  cid : Cid
  viewNum : UInt64
  elements : List PreProcessRequestMsg

/-- The sender and the client of the batch stand for those of its elements. -/
def PreProcessBatchRequestMsg.getPreProcessRequestMsgs (m : PreProcessBatchRequestMsg) :
    List PreProcessRequestMsg :=
  m.elements.map fun e => { e with senderId := m.senderId, clientId := m.clientId }

structure PreProcessBatchReplyMsg where
  senderId : UInt16
  clientId : UInt16
  cid : Cid
  viewNum : UInt64
  elements : List PreProcessReplyMsg

def PreProcessBatchReplyMsg.getPreProcessReplyMsgs (m : PreProcessBatchReplyMsg) :
    List PreProcessReplyMsg :=
  m.elements.map fun e =>
    { e with senderId := m.senderId, headerSenderId := m.senderId, clientId := m.clientId }

/-! ## Configuration and state -/

structure PreProcessorConfig extends PreProcessConfig where
  numOfClientProxies : ℕ
  numOfExternalClients : ℕ
  clientMaxBatchSize : ℕ
  clientBatchingEnabled : Bool
  memoryPoolEnabled : Bool
  isValidClient : UInt16 → Bool
  isIdOfReplica : UInt16 → Bool
  /-- The ids of all clients have 16 bits. -/
  clientIds_le : numOfReplicas + numOfClientProxies + numOfExternalClients ≤ 2 ^ 16

/-- What the replica tells its pre-processor. -/
structure InternalReplicaApi where
  isCurrentPrimary : Bool
  currentView : UInt64
  currentViewIsActive : Bool
  isCollectingState : Bool
  isClientRequestInProcess : UInt16 → UInt64 → Bool
  isReplyAlreadySentToClient : UInt16 → UInt64 → Bool

/-- The part of a request that does not take part in the voting. -/
structure SlotRequest where
  batchCid : Cid
  /-- `clientPreProcessReqMsg_` is set. -/
  clientMsg : Bool
  /-- `preProcessRequestMsg_` is set. -/
  preProcessRequest : Bool
  processing : RequestProcessingState

/-- A slot; of the requests in the history only the numbers are read. -/
structure RequestState where
  request : Option SlotRequest := none
  reqProcessingHistory : List UInt64 := []

structure RequestsBatch where
  batchCid : Cid := []
  batchSize : ℕ := 0
  batchRegistered : Bool := false
  batchInProcess : Bool := false
  numOfCompletedReqs : ℕ := 0
  /-- The offsets of the replies that were collected. -/
  repliesList : List ℕ := []
  requestsMap : ℕ → RequestState := fun _ => {}

structure PreProcessJob where
  clientId : UInt16
  reqOffsetInBatch : ℕ
  batchCid : Cid
  isPrimary : Bool
  deriving DecidableEq

structure PreProcessor where
  replica : InternalReplicaApi
  ongoingReqBatches : UInt16 → Option RequestsBatch
  jobs : List PreProcessJob

namespace PreProcessorConfig

variable (cfg : PreProcessorConfig)

def firstClientId : ℕ := cfg.numOfReplicas + cfg.numOfClientProxies

/-- The clients for which entries are created. -/
def isExternalClient (clientId : UInt16) : Bool :=
  decide (cfg.firstClientId ≤ clientId.toNat) &&
    decide (clientId.toNat < cfg.firstClientId + cfg.numOfExternalClients)

/-- The number of result buffers, which is computed with 16 bits. -/
def numOfReqEntries : ℕ := cfg.numOfExternalClients * cfg.clientMaxBatchSize % 2 ^ 16

def getBufferOffset (clientId : UInt16) (reqOffsetInBatch : ℕ) : Exec ℕ := do
  ensure (decide (cfg.firstClientId ≤ clientId.toNat))
  return (clientId.toNat - cfg.firstClientId) * cfg.clientMaxBatchSize + reqOffsetInBatch

/-- The buffer itself is not modelled here, only that there is one. -/
def accessBuffer (clientId : UInt16) (reqOffsetInBatch : ℕ) : Exec Unit := do
  let bufferOffset ← cfg.getBufferOffset clientId reqOffsetInBatch
  if bufferOffset < cfg.numOfReqEntries then return () else .error .index

/-- With a memory pool the buffer is returned. -/
def returnBuffer (clientId : UInt16) (reqOffsetInBatch : ℕ) : Exec Unit :=
  if cfg.memoryPoolEnabled then cfg.accessBuffer clientId reqOffsetInBatch else .ok ()

/-- `reqProcessingHistoryHeight`, a counter of 8 bits. -/
def historyHeight : ℕ := cfg.clientMaxBatchSize % 2 ^ 8

/-- A request that was completed is moved to the history. -/
def archive (history : List UInt64) (reqSeqNum : UInt64) : Exec (List UInt64) :=
  if cfg.historyHeight ≤ history.length then
    match history with
    | [] => .error .access
    | _ :: rest => .ok (rest ++ [reqSeqNum])
  else .ok (history ++ [reqSeqNum])

end PreProcessorConfig

/-! ## One batch -/

namespace RequestsBatch

variable (cfg : PreProcessorConfig) (b : RequestsBatch)

def setBatchParameters (batchCid : Cid) (batchSize : ℕ) : RequestsBatch :=
  { b with batchCid := batchCid, batchSize := batchSize }

def resetBatchParams : RequestsBatch :=
  { b with
    batchSize := 0
    batchInProcess := false
    batchRegistered := false
    numOfCompletedReqs := 0
    batchCid := []
    repliesList := [] }

def registerBatch (batchCid : Cid) (batchSize : ℕ) : RequestsBatch :=
  if b.batchRegistered then b
  else { b with batchRegistered := true }.setBatchParameters batchCid batchSize

def startBatch (batchCid : Cid) (batchSize : ℕ) : RequestsBatch :=
  if b.batchInProcess then b
  else { b with batchInProcess := true, batchRegistered := true }.setBatchParameters batchCid
    batchSize

def increaseNumOfCompletedReqs (count : ℕ) : RequestsBatch :=
  { b with numOfCompletedReqs := b.numOfCompletedReqs + count }

def getRequestState (reqOffsetInBatch : ℕ) : Exec RequestState := do
  ensure (decide (reqOffsetInBatch < cfg.clientMaxBatchSize))
  return b.requestsMap reqOffsetInBatch

def setSlot (offset : ℕ) (slot : RequestState) : RequestsBatch :=
  { b with requestsMap := Function.update b.requestsMap offset slot }

def setRequest (offset : ℕ) (request : SlotRequest) : RequestsBatch :=
  b.setSlot offset { b.requestsMap offset with request := some request }

def finalizeBatchIfCompleted : RequestsBatch :=
  if b.batchSize = 0 then b
  else if b.numOfCompletedReqs < b.batchSize then b
  else b.resetBatchParams

def finalizeBatchIfCompletedSafe (batchCid : Cid) : RequestsBatch :=
  if b.batchCid ≠ [] ∧ batchCid = b.batchCid then b.finalizeBatchIfCompleted else b

/-- The history after a release. -/
def archived (slot : RequestState) (request : SlotRequest) (result : PreProcessingResult) :
    Exec (List UInt64) :=
  if result = .COMPLETE then
    cfg.archive slot.reqProcessingHistory request.processing.reqSeqNum
  else .ok slot.reqProcessingHistory

/-- The slot is freed, and the release of a request of a batch is counted. -/
def released (offset : ℕ) (request : SlotRequest) (history : List UInt64) : RequestsBatch :=
  (b.setSlot offset ⟨none, history⟩).increaseNumOfCompletedReqs
    (if request.batchCid = [] then 0 else 1)

def releaseClientPreProcessRequest (clientId : UInt16) (offset : ℕ)
    (result : PreProcessingResult) : Exec RequestsBatch :=
  match (b.requestsMap offset).request with
  | none => .ok b
  | some request => do
    let history ← archived cfg (b.requestsMap offset) request result
    cfg.returnBuffer clientId offset
    return b.released offset request history

def releaseClientPreProcessRequestSafe (clientId : UInt16) (offset : ℕ)
    (result : PreProcessingResult) : Exec RequestsBatch := do
  let _ ← b.getRequestState cfg offset
  b.releaseClientPreProcessRequest cfg clientId offset result

/-- All slots are released and the batch is reset. -/
def cancelBatchAndReleaseRequests (clientId : UInt16) (batchCidToCancel : Cid)
    (status : PreProcessingResult) : Exec RequestsBatch :=
  if b.batchCid ≠ batchCidToCancel then .ok b
  else do
    let b ← (List.range cfg.clientMaxBatchSize).foldlM
      (fun b offset => b.releaseClientPreProcessRequest cfg clientId offset status) b
    return b.resetBatchParams

/-- On a replica that is not the primary: the requests are released when all replies are there. -/
def releaseReqsAndSendBatchedReplyIfCompleted (clientId : UInt16) (offset : ℕ) :
    Exec RequestsBatch :=
  if ¬ b.batchInProcess then .ok b
  else
    let b := { b with repliesList := b.repliesList ++ [offset] }
    if b.repliesList.length < b.batchSize then .ok b
    else do
      let b ← b.repliesList.reverse.foldlM (fun b offset =>
        b.releaseClientPreProcessRequestSafe cfg clientId offset .COMPLETE) b
      return b.resetBatchParams

def cancelRequestAndBatchIfCompleted (clientId : UInt16) (reqBatchCid : Cid) (offset : ℕ)
    (status : PreProcessingResult) : Exec RequestsBatch :=
  if b.batchCid ≠ reqBatchCid then .ok b
  else do
    let b ← b.releaseClientPreProcessRequest cfg clientId offset status
    return b.finalizeBatchIfCompleted

/-- The request takes its slot, or the message of the primary is added to it. -/
def registerRequest (clientId : UInt16) (reqSeqNum : UInt64) (batchCid : Cid) (batchSize : ℕ)
    (clientReqMsg preProcessRequestMsg : Bool) (offset : ℕ) : Exec (Bool × RequestsBatch) := do
  let slot ← b.getRequestState cfg offset
  let b :=
    if batchCid = [] then b
    else if preProcessRequestMsg then b.startBatch batchCid batchSize
    else b.registerBatch batchCid batchSize
  match slot.request with
  | none =>
    return (true, b.setRequest offset ⟨batchCid, clientReqMsg, preProcessRequestMsg,
      { clientId := clientId, reqSeqNum := reqSeqNum }⟩)
  | some request =>
    if request.preProcessRequest then return (false, b)
    -- `setPreProcessRequest` reads the message that it is given
    else if preProcessRequestMsg then
      return (true, b.setRequest offset { request with preProcessRequest := true })
    else .error .access

def registerRequestOnPrimaryReplica (clientId : UInt16) (reqSeqNum : UInt64) (batchCid : Cid)
    (batchSize : ℕ) (offset : ℕ) : Exec (Bool × RequestsBatch) :=
  let b := if batchCid = [] then b else b.registerBatch batchCid batchSize
  b.registerRequest cfg clientId reqSeqNum batchCid batchSize true true offset

def setPreprocessingRightNow (offset : ℕ) (set : Bool) : Exec RequestsBatch := do
  let slot ← b.getRequestState cfg offset
  match slot.request with
  | none => return b
  | some request =>
    return b.setRequest offset { request with
      processing := { request.processing with preprocessingRightNow := set } }

/-- Replicas that rejected the request are asked again. -/
def resendPreProcessRequest (request : SlotRequest) : SlotRequest :=
  if request.preProcessRequest then
    { request with processing := { request.processing with rejectedReplicaIds := [] } }
  else request

/-- The result is passed on; the message of the primary is read for it. -/
def finalizePreProcessing (clientId : UInt16) (offset : ℕ) (batchCid : Cid) :
    Exec RequestsBatch := do
  let slot ← b.getRequestState cfg offset
  match slot.request with
  | none => return b
  | some request =>
    if request.preProcessRequest then
      let _ ← request.processing.finalizePreProcessing cfg.toPreProcessConfig
      let b ← b.releaseClientPreProcessRequest cfg clientId offset .COMPLETE
      return b.finalizeBatchIfCompletedSafe batchCid
    else .error .access

def cancelPreProcessing (clientId : UInt16) (batchCid : Cid) (offset : ℕ) : Exec RequestsBatch := do
  let _ ← b.getRequestState cfg offset
  if batchCid ≠ [] then b.cancelRequestAndBatchIfCompleted cfg clientId batchCid offset .CANCEL
  else b.releaseClientPreProcessRequest cfg clientId offset .CANCEL

def holdCompleteOrCancelRequest (result : PreProcessingResult) (clientId : UInt16) (offset : ℕ)
    (batchCid : Cid) : Exec RequestsBatch :=
  match result with
  | .COMPLETE => b.finalizePreProcessing cfg clientId offset batchCid
  | .CANCEL => b.cancelPreProcessing cfg clientId batchCid offset
  | _ => .ok b

/-- A decision about the request in the slot, after a vote. -/
def decideRequest (clientId : UInt16) (offset : ℕ) (batchCid : Cid) (request : SlotRequest)
    (resend : Bool) : Exec RequestsBatch := do
  let (result, processing) ←
    request.processing.definePreProcessingConsensusResult cfg.toPreProcessConfig
  let request := { request with processing := processing }
  let request := if resend ∧ result = .CONTINUE then resendPreProcessRequest request else request
  (b.setRequest offset request).holdCompleteOrCancelRequest cfg result clientId offset batchCid

def handleSinglePreProcessReplyMsg (m : PreProcessReplyMsg) (batchCid : Cid) :
    Exec RequestsBatch := do
  let slot ← b.getRequestState cfg m.reqOffsetInBatch.toNat
  match slot.request with
  | none => return b
  | some request =>
    if request.processing.reqSeqNum ≠ m.reqSeqNum then return b
    else
      let request := { request with processing := request.processing.handlePreProcessReplyMsg m }
      if m.status = ReplyStatus.STATUS_REJECT then
        return b.setRequest m.reqOffsetInBatch.toNat request
      else b.decideRequest cfg m.clientId m.reqOffsetInBatch.toNat batchCid request true

/-- The job of the primary has ended; `buffer` holds its result. -/
def handleReqPreProcessedByPrimary (clientId : UInt16) (offset : ℕ) (batchCid : Cid)
    (buffer : List UInt8) (resultBufLen : ℕ) (preProcessResult : ResultCode) :
    Exec RequestsBatch := do
  let slot ← b.getRequestState cfg offset
  match slot.request with
  | none => return b
  | some request =>
    let processing ← request.processing.handlePrimaryPreProcessed cfg.toPreProcessConfig buffer
      resultBufLen preProcessResult
    b.decideRequest cfg clientId offset batchCid { request with processing := processing } false

/-- The reply of another replica is sent, alone or with those of the batch. -/
def sendReply (clientId : UInt16) (offset : ℕ) : Exec RequestsBatch :=
  if b.batchInProcess then b.releaseReqsAndSendBatchedReplyIfCompleted cfg clientId offset
  else b.releaseClientPreProcessRequestSafe cfg clientId offset .COMPLETE

/-- The job of another replica has ended. -/
def handleReqPreProcessedByNonPrimary (clientId : UInt16) (offset : ℕ) : Exec RequestsBatch := do
  let b ← b.sendReply cfg clientId offset
  b.setPreprocessingRightNow cfg offset false

/-- Only a request of which the client message is there and no job is running can expire;
`elapsed` says whether its time is over. -/
def isReqTimedOut (request : SlotRequest) (elapsed : Bool) : Bool :=
  request.clientMsg && !request.processing.preprocessingRightNow && elapsed

/-- The slot after a look of the timer, and whether its request has expired. -/
def handlePossiblyExpiredRequest (replica : InternalReplicaApi) (clientId : UInt16)
    (elapsed : ℕ → Bool) (acc : RequestsBatch × ℕ) (offset : ℕ) : Exec (RequestsBatch × ℕ) :=
  match (acc.1.requestsMap offset).request with
  | none => .ok acc
  | some request =>
    if isReqTimedOut request (elapsed offset) then do
      return (← acc.1.releaseClientPreProcessRequest cfg clientId offset .EXPIRED, acc.2 + 1)
    else if replica.isCurrentPrimary then do
      let (result, processing) ←
        request.processing.definePreProcessingConsensusResult cfg.toPreProcessConfig
      let request := { request with processing := processing }
      return (acc.1.setRequest offset
        (if result = .CONTINUE then resendPreProcessRequest request else request), acc.2)
    else .ok acc

def handlePossiblyExpiredRequests (replica : InternalReplicaApi) (clientId : UInt16)
    (elapsed : ℕ → Bool) : Exec RequestsBatch := do
  let (b, reqsExpired) ← (List.range cfg.clientMaxBatchSize).foldlM
    (handlePossiblyExpiredRequest cfg replica clientId elapsed) (b, 0)
  return if b.batchSize ≠ 0 ∧ reqsExpired ≠ 0 ∧ b.batchSize ≤ b.numOfCompletedReqs then
    b.resetBatchParams else b

end RequestsBatch

/-! ## The message handlers -/

namespace PreProcessor

variable (cfg : PreProcessorConfig) (s : PreProcessor)

def start (replica : InternalReplicaApi) : PreProcessor where
  replica := replica
  ongoingReqBatches clientId := if cfg.isExternalClient clientId then some {} else none
  jobs := []

/-- `ongoingReqBatches_[clientId]`, which is followed by the caller. -/
def batchOf (clientId : UInt16) : Exec RequestsBatch :=
  match s.ongoingReqBatches clientId with
  | some b => .ok b
  | none => .error .access

def setBatch (clientId : UInt16) (b : RequestsBatch) : PreProcessor :=
  { s with ongoingReqBatches := Function.update s.ongoingReqBatches clientId (some b) }

/-- What is done with the batch of one client. -/
def onBatch (clientId : UInt16) (f : RequestsBatch → Exec RequestsBatch) : Exec PreProcessor := do
  let b ← s.batchOf clientId
  return s.setBatch clientId (← f b)

def launchAsyncReqPreProcessingJob (job : PreProcessJob) : Exec PreProcessor := do
  let s ← s.onBatch job.clientId fun b =>
    b.setPreprocessingRightNow cfg job.reqOffsetInBatch true
  return { s with jobs := s.jobs ++ [job] }

def checkClientMsgCorrectness (isReadOnly : Bool) (clientId senderId : UInt16) : Bool :=
  !s.replica.isCollectingState && !isReadOnly && cfg.isValidClient clientId &&
    !(cfg.isIdOfReplica senderId && !s.replica.isCurrentPrimary) && s.replica.currentViewIsActive

/-- Whether a request of a client is not handled: the slot is occupied, the request is on its way
already, a newer one was pre-processed, or it was executed. -/
def declines (slot : RequestState) (m : ClientPreProcessRequestMsg) : Bool :=
  slot.request.isSome || s.replica.isClientRequestInProcess m.clientProxyId m.requestSeqNum ||
    slot.reqProcessingHistory.any (fun reqSeqNum =>
      decide (toSeqNum m.requestSeqNum < toSeqNum reqSeqNum)) ||
    s.replica.isReplyAlreadySentToClient m.clientProxyId m.requestSeqNum

def handleSingleClientRequestMessage (m : ClientPreProcessRequestMsg) (offset : ℕ)
    (batchCid : Cid) (batchSize : ℕ) : Exec (Bool × PreProcessor) := do
  let b ← s.batchOf m.clientProxyId
  let slot ← b.getRequestState cfg offset
  if s.declines slot m then return (false, s)
  else if s.replica.isCurrentPrimary then
    let (registerSucceeded, b) ← b.registerRequestOnPrimaryReplica cfg m.clientProxyId
      m.requestSeqNum batchCid batchSize offset
    let s := s.setBatch m.clientProxyId b
    if registerSucceeded then
      return (true, ← s.launchAsyncReqPreProcessingJob cfg
        ⟨m.clientProxyId, offset, batchCid, true⟩)
    else return (false, s)
  else
    let (_, b) ← b.registerRequest cfg m.clientProxyId m.requestSeqNum batchCid batchSize true
      false offset
    return (true, s.setBatch m.clientProxyId b)

def onClientPreProcessRequestMsg (senderId : UInt16) (m : ClientPreProcessRequestMsg) :
    Exec PreProcessor :=
  if s.checkClientMsgCorrectness cfg m.isReadOnly m.clientProxyId senderId then do
    return (← s.handleSingleClientRequestMessage cfg m 0 [] 1).2
  else .ok s

def checkClientBatchMsgCorrectness (m : ClientBatchRequestMsg) : Bool :=
  cfg.clientBatchingEnabled && decide (m.clientMsgs.length ≤ cfg.clientMaxBatchSize) &&
    m.clientMsgs.all fun msg =>
      s.checkClientMsgCorrectness cfg false msg.clientProxyId m.senderId && msg.valid

/-- The requests of a batch are handled one after another, and those that are skipped counted. -/
def handleClientMsgs (m : ClientBatchRequestMsg) :
    List ClientPreProcessRequestMsg → ℕ → ℕ → PreProcessor → Exec (ℕ × PreProcessor)
  | [], _, numOfReqsToSkip, s => .ok (numOfReqsToSkip, s)
  | msg :: msgs, offset, numOfReqsToSkip, s => do
    let (reqToBeProcessed, s) ← s.handleSingleClientRequestMessage cfg msg offset m.cid
      m.clientMsgs.length
    handleClientMsgs m msgs (offset + 1)
      (if s.replica.isCurrentPrimary ∧ ¬ reqToBeProcessed then numOfReqsToSkip + 1
      else numOfReqsToSkip) s

def onClientBatchRequestMsg (m : ClientBatchRequestMsg) : Exec PreProcessor :=
  if s.checkClientBatchMsgCorrectness cfg m then do
    let batchEntry ← s.batchOf m.clientId
    if batchEntry.batchRegistered then return s
    else
      let (numOfReqsToSkip, s) ← handleClientMsgs cfg m m.clientMsgs 0 0 s
      if numOfReqsToSkip = m.clientMsgs.length then return s
      else if s.replica.isCurrentPrimary ∧ numOfReqsToSkip ≠ 0 then
        s.onBatch m.clientId fun b => .ok (b.increaseNumOfCompletedReqs numOfReqsToSkip)
      else return s
  else .ok s

def checkPreProcessReqPrerequisites : Bool :=
  !s.replica.isCollectingState && !s.replica.isCurrentPrimary && s.replica.currentViewIsActive

/-- `validate`, for a message whose size and type are right. -/
def validateRequest (m : PreProcessRequestMsg) : Bool :=
  decide (m.senderId ≠ cfg.myReplicaId) && m.signatureVerified

def checkPreProcessBatchReqMsgCorrectness (m : PreProcessBatchRequestMsg) : Bool :=
  decide (m.viewNum = s.replica.currentView) &&
    m.getPreProcessRequestMsgs.all fun msg =>
      s.checkPreProcessReqPrerequisites && validateRequest cfg msg

/-- A request of the primary takes its slot and is launched. -/
def registerPreProcessRequestMsg (b : RequestsBatch) (m : PreProcessRequestMsg) (batchCid : Cid)
    (batchSize : ℕ) : Exec (Bool × PreProcessor) := do
  let (registerSucceeded, b) ← b.registerRequest cfg m.clientId m.reqSeqNum batchCid batchSize
    false true m.reqOffsetInBatch.toNat
  let s := s.setBatch m.clientId b
  if registerSucceeded then
    return (true, ← s.launchAsyncReqPreProcessingJob cfg
      ⟨m.clientId, m.reqOffsetInBatch.toNat, batchCid, false⟩)
  else return (false, s)

/-- A request of the primary is registered, rejected or cancelled. -/
def handleSinglePreProcessRequestMsg (m : PreProcessRequestMsg) (batchCid : Cid)
    (batchSize : ℕ) : Exec (Bool × PreProcessor) :=
  if s.checkPreProcessReqPrerequisites then do
    let offset := m.reqOffsetInBatch.toNat
    let b ← s.batchOf m.clientId
    let slot ← b.getRequestState cfg offset
    match slot.request with
    | some request =>
      if request.preProcessRequest then
        -- the rejection is built with the result buffer
        cfg.accessBuffer m.clientId offset
        return (false, s)
      else if m.reqType = .REQ_TYPE_CANCEL then
        let b ← b.releaseClientPreProcessRequest cfg m.clientId offset .CANCELLED_BY_PRIMARY
        return (false, s.setBatch m.clientId b)
      else s.registerPreProcessRequestMsg cfg b m batchCid batchSize
    | none =>
      if m.reqType = .REQ_TYPE_CANCEL then return (false, s)
      else s.registerPreProcessRequestMsg cfg b m batchCid batchSize
  else .ok (false, s)

def handlePreProcessRequestMsgs (batchCid : Cid) (batchSize : ℕ) :
    List PreProcessRequestMsg → ℕ → PreProcessor → Exec (ℕ × PreProcessor)
  | [], numOfReqsToSkip, s => .ok (numOfReqsToSkip, s)
  | msg :: msgs, numOfReqsToSkip, s => do
    let (reqToBeProcessed, s) ← s.handleSinglePreProcessRequestMsg cfg msg batchCid batchSize
    handlePreProcessRequestMsgs batchCid batchSize msgs
      (if reqToBeProcessed then numOfReqsToSkip else numOfReqsToSkip + 1) s

def onPreProcessBatchRequestMsg (m : PreProcessBatchRequestMsg) : Exec PreProcessor :=
  if s.checkPreProcessBatchReqMsgCorrectness cfg m then do
    let batchEntry ← s.batchOf m.clientId
    if batchEntry.batchInProcess then return s
    else if m.reqType = .REQ_TYPE_CANCEL then
      s.onBatch m.clientId fun b =>
        b.cancelBatchAndReleaseRequests cfg m.clientId m.cid .CANCELLED_BY_PRIMARY
    else
      let (numOfReqsToSkip, s) ← handlePreProcessRequestMsgs cfg m.cid m.elements.length
        m.getPreProcessRequestMsgs 0 s
      if numOfReqsToSkip = m.elements.length then return s
      else s.onBatch m.clientId fun b => .ok (b.increaseNumOfCompletedReqs numOfReqsToSkip)
  else .ok s

def onPreProcessRequestMsg (m : PreProcessRequestMsg) : Exec PreProcessor :=
  if m.viewNum = s.replica.currentView then do
    return (← s.handleSinglePreProcessRequestMsg cfg m [] 1).2
  else .ok s

def onPreProcessReplyMsg (m : PreProcessReplyMsg) : Exec PreProcessor :=
  if m.viewNum = s.replica.currentView then
    s.onBatch m.clientId fun b => b.handleSinglePreProcessReplyMsg cfg m []
  else .ok s

def checkPreProcessReplyPrerequisites : Bool :=
  !s.replica.isCollectingState && s.replica.isCurrentPrimary && s.replica.currentViewIsActive

def checkPreProcessBatchReplyMsgCorrectness (m : PreProcessBatchReplyMsg) : Bool :=
  decide (m.viewNum = s.replica.currentView) &&
    m.getPreProcessReplyMsgs.all fun msg =>
      s.checkPreProcessReplyPrerequisites && msg.validate cfg.toResultAuth

def onPreProcessBatchReplyMsg (m : PreProcessBatchReplyMsg) : Exec PreProcessor :=
  s.onBatch m.clientId fun b =>
    if b.batchInProcess ∧ b.batchCid = m.cid then
      if s.checkPreProcessBatchReplyMsgCorrectness cfg m then
        m.getPreProcessReplyMsgs.foldlM
          (fun b msg => b.handleSinglePreProcessReplyMsg cfg msg m.cid) b
      else .ok b
    else .ok b

def finishJob (job : PreProcessJob) (buffer : List UInt8) (resultBufLen : ℕ)
    (preProcessResult : ResultCode) : Exec PreProcessor :=
  s.onBatch job.clientId fun b => do
    cfg.accessBuffer job.clientId job.reqOffsetInBatch
    if job.isPrimary then
      b.handleReqPreProcessedByPrimary cfg job.clientId job.reqOffsetInBatch job.batchCid buffer
        resultBufLen preProcessResult
    else b.handleReqPreProcessedByNonPrimary cfg job.clientId job.reqOffsetInBatch

end PreProcessor

/-! ## Steps -/

inductive PreProcessorEvent
  | clientRequest (senderId : UInt16) (m : ClientPreProcessRequestMsg)
  | clientBatch (m : ClientBatchRequestMsg)
  | request (m : PreProcessRequestMsg)
  | batchRequest (m : PreProcessBatchRequestMsg)
  | reply (m : PreProcessReplyMsg)
  | batchReply (m : PreProcessBatchReplyMsg)
  | job (place : ℕ) (buffer : List UInt8) (resultBufLen : ℕ) (preProcessResult : ResultCode)
  | timer (clientId : UInt16) (elapsed : ℕ → Bool)
  | replica (replica : InternalReplicaApi)

namespace PreProcessor

def step (cfg : PreProcessorConfig) (s : PreProcessor) : PreProcessorEvent → Exec PreProcessor
  | .clientRequest senderId m => s.onClientPreProcessRequestMsg cfg senderId m
  | .clientBatch m => s.onClientBatchRequestMsg cfg m
  | .request m => s.onPreProcessRequestMsg cfg m
  | .batchRequest m => s.onPreProcessBatchRequestMsg cfg m
  | .reply m => s.onPreProcessReplyMsg cfg m
  | .batchReply m => s.onPreProcessBatchReplyMsg cfg m
  | .job place buffer resultBufLen preProcessResult =>
    match s.jobs[place]? with
    | none => .ok s
    | some job =>
      { s with jobs := s.jobs.eraseIdx place }.finishJob cfg job buffer resultBufLen
        preProcessResult
  | .timer clientId elapsed =>
    match s.ongoingReqBatches clientId with
    | none => .ok s
    | some b => do
      return s.setBatch clientId (← b.handlePossiblyExpiredRequests cfg s.replica clientId elapsed)
  | .replica replica => .ok { s with replica := replica }

end PreProcessor

end ConcordBft
