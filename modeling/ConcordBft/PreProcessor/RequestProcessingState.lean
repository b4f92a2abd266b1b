import ConcordBft.PreProcessor.ResultSignatures
import ConcordBft.Lib.Buffer

/-!
# The state of one pre-executed request

The primary keeps, for each request that is pre-executed, the hashes that the replicas report and
for each hash the signatures of the replicas that reported it. Its own result lies in a buffer of
the pre-processor; the state has a pointer into it. `definePreProcessingConsensusResult` decides
whether enough replicas agree, and `finalizePreProcessing` builds the message with the result.
-/

namespace ConcordBft

open Verif Verif.Exec

inductive PreProcessingResult
  | NONE
  | CONTINUE
  | COMPLETE
  | CANCEL
  | EXPIRED
  | FAILED
  | CANCELLED_BY_PRIMARY
  deriving DecidableEq

/-- A value of `ReplyStatus`; a message may carry every number. -/
abbrev ReplyStatus := UInt32

namespace ReplyStatus

def STATUS_GOOD : ReplyStatus := 0
def STATUS_REJECT : ReplyStatus := 1
def STATUS_FAILED : ReplyStatus := 2

end ReplyStatus

/-- The fields of a reply. The signature is the bytes at its place behind the header. -/
structure PreProcessReplyMsg where
  /-- `MessageBase::senderId`, the peer that the message came from. -/
  senderId : ReplicaId
  headerSenderId : UInt16
  clientId : UInt16
  reqOffsetInBatch : UInt16
  reqSeqNum : UInt64
  status : ReplyStatus
  preProcessResult : ResultCode
  resultsHash : Digest
  signature : List UInt8
  viewNum : UInt64
  signature_lt : signature.length < 2 ^ 16
  deriving DecidableEq

/-- `validate`, for a message whose size and type are right. -/
def PreProcessReplyMsg.validate (auth : ResultAuth) (m : PreProcessReplyMsg) : Bool :=
  if m.headerSenderId = auth.myReplicaId then false
  else if m.status = ReplyStatus.STATUS_GOOD then
    auth.verifySig m.headerSenderId m.resultsHash m.signature
  else true

/-- `primaryPreProcessResultData_`: null, a place in the result buffer, or anything else. -/
inductive ResultPtr
  | null
  | buffer (offset : ℕ)
  | wild
  deriving DecidableEq

/-- What all requests share on the primary. -/
structure PreProcessConfig extends ResultAuth where
  /-- The number of replicas, those that only read included. -/
  numOfReplicas : ℕ
  numOfRequiredEqualReplies : ℕ
  preExecutionResultAuthEnabled : Bool

/-- Which signatures were reported for which hash, in the order of the hashes. -/
abbrev ResultHashes := List (Digest × List PreProcessResultSignature)

namespace ResultHashes

variable (hashes : ResultHashes)

def lt (a b : Digest) : Bool := decide (a.toNat < b.toNat)

def signatures (hash : Digest) : List PreProcessResultSignature :=
  (OrdMap.get? hash hashes).getD []

/-- `preProcessingResultHashes_[hash].emplace(sig)`. -/
def emplace (hash : Digest) (sig : PreProcessResultSignature) : ResultHashes :=
  OrdMap.upsert lt hash
    (fun sigs => OrdSet.insert PreProcessResultSignature.lt sig (sigs.getD [])) hashes

def hasSender (hash : Digest) (sender : ReplicaId) : Bool :=
  (signatures hashes hash).any fun sig => sig.sender_replica == sender

/-- The first entry with the most signatures. -/
def calculateMaxNbrOfEqualHashes : Option (Digest × List PreProcessResultSignature) :=
  hashes.foldl (fun chosen entry =>
    match chosen with
    | none => some entry
    | some best => if best.2.length < entry.2.length then some entry else some best) none

end ResultHashes

structure RequestProcessingState where
  clientId : UInt16
  reqSeqNum : UInt64
  /-- A counter of 16 bits. -/
  numOfReceivedReplies : ℕ := 0
  rejectedReplicaIds : List ReplicaId := []
  /-- The memory that the pre-processor allocated for the result. -/
  resultBuffer : List UInt8 := []
  primaryPreProcessResultData : ResultPtr := .null
  primaryPreProcessResultLen : ℕ := 0
  primaryPreProcessResult : ResultCode := ResultCode.UNKNOWN
  agreedPreProcessResult : ResultCode := ResultCode.UNKNOWN
  primaryPreProcessResultHash : Digest := 0
  preProcessingResultHashes : ResultHashes := []
  preprocessingRightNow : Bool := false
  deriving DecidableEq

namespace RequestProcessingState

variable (cfg : PreProcessConfig) (s : RequestProcessingState)

def readResult : Exec (List UInt8) :=
  match s.primaryPreProcessResultData with
  | .null => if s.primaryPreProcessResultLen = 0 then .ok [] else .error .access
  | .buffer offset => slice s.resultBuffer offset s.primaryPreProcessResultLen
  | .wild => .error .access

def sizeOfPreProcessResultData : ℕ := 14

/-- The code, the client and the request number are written over the result. The pointer moves
behind the client, the length is that of all three. -/
def setupPreProcessResultData (preProcessResult : ResultCode) : Exec RequestProcessingState :=
  match s.primaryPreProcessResultData with
  | .buffer offset => do
    let buffer ← overwrite s.resultBuffer offset
      (leBytes 4 preProcessResult.toNat ++ (leBytes 2 s.clientId.toNat ++
        leBytes 8 s.reqSeqNum.toNat))
    return { s with
      resultBuffer := buffer
      primaryPreProcessResultData := .buffer (offset + 6)
      primaryPreProcessResultLen := sizeOfPreProcessResultData }
  | _ => .error .access

/-- The code is written over the pointer itself. -/
def updatePreProcessResultData : RequestProcessingState :=
  { s with
    primaryPreProcessResultData := .wild
    primaryPreProcessResultLen := sizeOfPreProcessResultData }

/-- A signature is stored and counted unless its sender already reported the hash. -/
def addSignature (hash : Digest) (sig : PreProcessResultSignature) : RequestProcessingState :=
  if s.preProcessingResultHashes.hasSender hash sig.sender_replica then s
  else { s with
    preProcessingResultHashes := s.preProcessingResultHashes.emplace hash sig
    numOfReceivedReplies := (s.numOfReceivedReplies + 1) % 2 ^ 16 }

/-- The result of the primary; `buffer` is the memory behind `preProcessResultData`. -/
def setPrimaryResult (buffer : List UInt8) (preProcessResultLen : ℕ)
    (preProcessResult : ResultCode) : RequestProcessingState :=
  let s := { s with preprocessingRightNow := false, primaryPreProcessResult := preProcessResult }
  if preProcessResult ≠ ResultCode.UNKNOWN then
    { s with
      resultBuffer := buffer
      primaryPreProcessResultData := .buffer 0
      primaryPreProcessResultLen := preProcessResultLen }
  else s

/-- The data is read only for a success. -/
def primaryHash : Exec Digest := do
  let data ← if s.primaryPreProcessResult = ResultCode.SUCCESS then s.readResult else .ok []
  return PreProcessResultHashCreator.create cfg.sha data s.primaryPreProcessResult s.clientId
    s.reqSeqNum

/-- A failure is described in the place of the result. -/
def describeFailure : Exec RequestProcessingState :=
  if s.primaryPreProcessResult ≠ ResultCode.SUCCESS then
    s.setupPreProcessResultData s.primaryPreProcessResult
  else .ok s

def handlePrimaryPreProcessed (buffer : List UInt8) (preProcessResultLen : ℕ)
    (preProcessResult : ResultCode) : Exec RequestProcessingState := do
  let s := s.setPrimaryResult buffer preProcessResultLen preProcessResult
  let hash ← s.primaryHash cfg
  let s ← { s with primaryPreProcessResultHash := hash }.describeFailure
  return s.addSignature hash ⟨cfg.sign hash, cfg.myReplicaId, preProcessResult⟩

def handlePreProcessReplyMsg (m : PreProcessReplyMsg) : RequestProcessingState :=
  if m.status ≠ ReplyStatus.STATUS_REJECT then
    s.addSignature m.resultsHash ⟨m.signature, m.senderId, m.preProcessResult⟩
  else { s with rejectedReplicaIds := s.rejectedReplicaIds ++ [m.senderId] }

/-! ## The decision -/

/-- The result of the primary with another block id in its last bytes, if it has the hash. -/
def detectFailureDueToBlockID (other : Digest) (blockId : ℕ) :
    Exec (Option (List UInt8 × Digest)) := do
  let result ← s.readResult
  ensure (decide (8 < result.length))
  let modifiedResult := result.take (result.length - 8) ++ leBytes 8 blockId
  let modifiedHash := PreProcessResultHashCreator.create cfg.sha modifiedResult ResultCode.SUCCESS
    s.clientId s.reqSeqNum
  return if other = modifiedHash then some (modifiedResult, modifiedHash) else none

/-- The signature of the primary is added without being counted. -/
def modifyPrimaryResult (result : List UInt8 × Digest) : Exec RequestProcessingState :=
  match s.primaryPreProcessResultData with
  | .buffer offset => do
    let buffer ← overwrite s.resultBuffer offset result.1
    return { s with
      resultBuffer := buffer
      primaryPreProcessResultHash := result.2
      preProcessingResultHashes := s.preProcessingResultHashes.emplace result.2
        ⟨cfg.sign result.2, cfg.myReplicaId, s.primaryPreProcessResult⟩ }
  | _ => .error .access

def waitForReplies : PreProcessingResult :=
  if s.numOfReceivedReplies = cfg.numOfReplicas then .CANCEL else .CONTINUE

def decide (hash : Digest) (agreed : ResultCode) :
    Exec (PreProcessingResult × RequestProcessingState) := do
  let s := { s with agreedPreProcessResult := agreed }
  if hash = s.primaryPreProcessResultHash then return (.COMPLETE, s)
  if s.primaryPreProcessResult = ResultCode.SUCCESS then
    if agreed ≠ ResultCode.SUCCESS then return (.COMPLETE, s.updatePreProcessResultData)
    match ← s.detectFailureDueToBlockID cfg hash 0 with
    | some modifiedResult => return (.COMPLETE, ← s.modifyPrimaryResult cfg modifiedResult)
    | none => return (.CANCEL, s)
  -- the primary failed and the others agree on something else
  return (s.waitForReplies cfg, s)

def definePreProcessingConsensusResult : Exec (PreProcessingResult × RequestProcessingState) :=
  if s.numOfReceivedReplies < cfg.numOfRequiredEqualReplies then .ok (.CONTINUE, s)
  else if s.preprocessingRightNow then .ok (.CONTINUE, s)
  else
    match s.preProcessingResultHashes.calculateMaxNbrOfEqualHashes with
    | none => .ok (s.waitForReplies cfg, s)
    | some (hash, sigs) =>
      if cfg.numOfRequiredEqualReplies ≤ sigs.length then
        match sigs with
        | [] => .error .access
        | first :: _ => s.decide cfg hash first.pre_process_result
      else .ok (s.waitForReplies cfg, s)

/-! ## The message with the result -/

def getPreProcessResultSignatures : Exec (List PreProcessResultSignature) :=
  match OrdMap.get? s.primaryPreProcessResultHash s.preProcessingResultHashes with
  | some sigs => .ok sigs
  | none => .error .assertion

/-- The message that `finalizePreProcessing` builds. A success is sent as `UNKNOWN`. -/
def finalizePreProcessing : Exec PreProcessResultMsg := do
  let preProcessResult :=
    if s.agreedPreProcessResult = ResultCode.SUCCESS then ResultCode.UNKNOWN
    else s.agreedPreProcessResult
  let sigsBuf ←
    if cfg.preExecutionResultAuthEnabled then do
      let sigsSet ← s.getPreProcessResultSignatures
      pure (PreProcessResultSignature.serializeResultSignatures sigsSet
        cfg.numOfRequiredEqualReplies)
    else pure []
  let data ← s.readResult
  return ⟨s.clientId, s.reqSeqNum, preProcessResult, data, sigsBuf⟩

end RequestProcessingState

end ConcordBft
