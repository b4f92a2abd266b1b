import ConcordBft.Lib.Run
import ConcordBft.Messages.PrePrepare

/-!
# Execution of the requests of a committed PrePrepare message

The model of the two execution paths of a replica, `executeRequestsInPrePrepareMsg` and
`startPrePrepareMsgExecution`, with the bitmap of requests that Phase 1 persists, and of the
table of replies that `ClientsManager` keeps. An execution returns the persisted bitmap, the
requests handed to the requests handler in order, and the new table; or it stops the process by a
failed assertion. The replies themselves, the reserved pages they are written to and the pending
requests are left out: none of them decides which requests are executed.
-/

namespace ConcordBft

open Verif Verif.Exec ClientRequestMsg List Except

/-! ## Replies of clients -/

/-- `repliesBiMap_`: the sequence numbers of the requests whose replies are kept, with their index
in the batch of the client. No sequence number and no index occurs twice. -/
structure RepliesInfo where
  entries : List (UInt64 × UInt16)
  left_nodup : (entries.map Prod.fst).Nodup
  right_nodup : (entries.map Prod.snd).Nodup

namespace RepliesInfo

def empty : RepliesInfo := ⟨[], nodup_nil, nodup_nil⟩

variable (r : RepliesInfo)

def find (reqSeqNum : UInt64) : Bool := r.entries.any fun e => e.1 == reqSeqNum

def erase (reqSeqNum : UInt64) : RepliesInfo where
  entries := r.entries.filter fun e => e.1 != reqSeqNum
  left_nodup := r.left_nodup.sublist (filter_sublist.map _)
  right_nodup := r.right_nodup.sublist (filter_sublist.map _)

/-- The sequence number saved at the index, `0` if there is none. -/
def savedReplyId (reqIndex : UInt16) : UInt64 :=
  ((r.entries.find? fun e => e.2 == reqIndex).map Prod.fst).getD 0

/-- A reply to request number `0` is never deleted. -/
def deleteReplyIfNeededSafe (reqIndex : UInt16) : RepliesInfo :=
  if r.savedReplyId reqIndex ≠ 0 then r.erase (r.savedReplyId reqIndex) else r

/-- The insertion into a bimap does nothing if one of the two keys is present. -/
def insertOrAssignSafe (reqSeqNum : UInt64) (reqIndexInBatch : UInt16) : RepliesInfo :=
  if h : ∃ e ∈ r.entries, e.1 = reqSeqNum ∨ e.2 = reqIndexInBatch then r
  else {
    entries := (reqSeqNum, reqIndexInBatch) :: r.entries
    left_nodup := by
      refine nodup_cons.mpr ⟨fun hmem => ?_, r.left_nodup⟩
      obtain ⟨e, he, heq⟩ := mem_map.mp hmem
      exact h ⟨e, he, Or.inl heq⟩
    right_nodup := by
      refine nodup_cons.mpr ⟨fun hmem => ?_, r.right_nodup⟩
      obtain ⟨e, he, heq⟩ := mem_map.mp hmem
      exact h ⟨e, he, Or.inr heq⟩ }

end RepliesInfo

abbrev Replies := UInt16 → RepliesInfo

/-- What the execution reads from the configuration. -/
structure ExecutionConfig extends ReplicasInfo where
  isIdOfInternalClient : UInt16 → Bool
  isValidClient : UInt16 → Bool
  maxNumOfReqsPerClient : UInt16
  /-- `ps_ != nullptr`. -/
  hasPersistentStorage : Bool
  enablePostExecutionSeparation : Bool

def maxNumOfRequestsInBatch : ℕ := 4096

/-- A committed PrePrepare message, with the state of the replica when its execution starts. -/
structure Committed where
  ppMsg : PrePrepareMsg
  currentPrimary : ReplicaId
  pruningProcessStatus : Bool

structure Outcome where
  /-- `validRequests` of the `DescriptorOfLastExecution` that was written, if one was. -/
  descriptor : Option (List Bool)
  handed : List ClientRequestMsg
  replies : Replies

namespace ClientRequestMsg

variable (req : ClientRequestMsg)

def clientProxyId : UInt16 := req.header.idOfClientProxy

def requestSeqNum : UInt64 := req.header.reqSeqNum

def isSpecial : Bool :=
  MsgFlag.has req.header.flags MsgFlag.KEY_EXCHANGE_FLAG ||
    MsgFlag.has req.header.flags MsgFlag.RECONFIG_FLAG ||
    MsgFlag.has req.header.flags MsgFlag.CLIENTS_PUB_KEYS_FLAG

def isEmpty : Bool := decide (req.header.requestLength = 0)

/-- The assertion of `setConflictDetectionBlockId`: a pre-processed request ends with the number
of a block. -/
def hasRoomForBlockId : Bool :=
  !MsgFlag.has req.header.flags MsgFlag.HAS_PRE_PROCESSED_FLAG ||
    decide (8 < req.header.requestLength.toNat)

end ClientRequestMsg

namespace ExecutionConfig

variable (cfg : ExecutionConfig) (replies : Replies)

def hasReply (clientId : UInt16) (reqSeqNum : UInt64) : Bool :=
  cfg.isValidClient clientId && (replies clientId).find reqSeqNum

def allocateNewReplyMsgAndWriteToStorage (clientId : UInt16)
    (requestSeqNum : UInt64) (reqIndexInBatch : UInt16) : Exec Replies :=
  if reqIndexInBatch < cfg.maxNumOfReqsPerClient then
    if cfg.isValidClient clientId then
      .ok (Function.update replies clientId
        (((replies clientId).deleteReplyIfNeededSafe reqIndexInBatch).insertOrAssignSafe
          requestSeqNum reqIndexInBatch))
    else .ok replies
  else .error .assertion

/-- Internal clients are not answered. -/
def sendResponse (req : ClientRequestMsg) : Exec Replies :=
  if cfg.isIdOfInternalClient req.clientProxyId then .ok replies
  else cfg.allocateNewReplyMsgAndWriteToStorage replies req.clientProxyId req.requestSeqNum
    req.header.indexInBatch

def sendResponses (accumulatedRequests : List ClientRequestMsg) : Exec Replies :=
  run cfg.sendResponse replies accumulatedRequests

/-! ## Phase 1 -/

/-- The bit that `executeRequestsInPrePrepareMsg` sets for a request. -/
def requestBit (currentPrimary : ReplicaId) (req : ClientRequestMsg) : Bool :=
  let clientId := req.clientProxyId
  if clientId = currentPrimary ∧ req.isEmpty then false
  else if !(cfg.isValidClient clientId || req.isInternal && cfg.isIdOfReplica clientId) then false
  else if cfg.hasReply replies clientId req.requestSeqNum then false
  else true

/-- The bit that `markSpecialRequests` sets for a request. -/
def ordinaryRequestBit (req : ClientRequestMsg) : Bool :=
  let clientId := req.clientProxyId
  if req.isSpecial then false
  else if req.isEmpty then false
  else if !cfg.isValidClient clientId then false
  else if cfg.hasReply replies clientId req.requestSeqNum then false
  else true

/-- The descriptor of the execution is written before any request is executed. -/
def setDescriptorOfLastExecution (requestSet : List Bool) : Exec (Option (List Bool)) :=
  if cfg.hasPersistentStorage then
    if 1 ≤ requestSet.length ∧ requestSet.length ≤ maxNumOfRequestsInBatch then
      .ok (some requestSet)
    else .error .assertion
  else .ok none

/-! ## Phase 2 -/

/-- The requests that both paths hand over: their bit is set and they are not empty. -/
def accumulateRequests : List ClientRequestMsg → List Bool → Exec (List ClientRequestMsg)
  | [], _ => .ok []
  | _ :: _, [] => .error .assertion
  | req :: requests, bit :: requestSet =>
    if !bit || req.isEmpty then accumulateRequests requests requestSet
    else if req.hasRoomForBlockId then do
      let accumulatedRequests ← accumulateRequests requests requestSet
      .ok (req :: accumulatedRequests)
    else .error .assertion

/-- The special requests, until `numOfSpecialReqs` of them are found. -/
def accumulateSpecialRequests : ℕ → List ClientRequestMsg → List ClientRequestMsg
  | 0, _ => []
  | _ + 1, [] => []
  | n + 1, req :: requests =>
    if req.isSpecial then req :: accumulateSpecialRequests n requests
    else accumulateSpecialRequests (n + 1) requests

/-- The special requests are handed over one by one, then answered. -/
def executeSpecialRequests (ppMsg : PrePrepareMsg) (numOfSpecialReqs : ℕ) :
    Exec (List ClientRequestMsg × Replies) := do
  let accumulatedRequests := accumulateSpecialRequests numOfSpecialReqs ppMsg.requests
  let replies ← cfg.sendResponses replies accumulatedRequests
  .ok (accumulatedRequests, replies)

def executeRequestsAndSendResponses (ppMsg : PrePrepareMsg)
    (requestSet : List Bool) : Exec (List ClientRequestMsg × Replies) := do
  let accumulatedRequests ← accumulateRequests ppMsg.requests requestSet
  let replies ← cfg.sendResponses replies accumulatedRequests
  .ok (accumulatedRequests, replies)

/-! ## The two paths -/

/-- The execution on the main thread. A recovering replica takes the bitmap that it persisted
before it stopped. -/
def executeRequestsInPrePrepareMsg (c : Committed)
    (mapOfRecoveredRequests : Option (List Bool)) : Exec Outcome :=
  if c.pruningProcessStatus then .ok ⟨none, [], replies⟩
  else if c.ppMsg.requests.length = 0 then
    if mapOfRecoveredRequests.isSome then .error .assertion else .ok ⟨none, [], replies⟩
  else
    match mapOfRecoveredRequests with
    | some requestSet => do
      let (handed, replies) ← cfg.executeRequestsAndSendResponses replies c.ppMsg requestSet
      .ok ⟨none, handed, replies⟩
    | none => do
      let requestSet := c.ppMsg.requests.map (cfg.requestBit replies c.currentPrimary)
      let descriptor ← cfg.setDescriptorOfLastExecution requestSet
      let (handed, replies) ← cfg.executeRequestsAndSendResponses replies c.ppMsg requestSet
      .ok ⟨descriptor, handed, replies⟩

/-- The execution with a separate thread: special requests first, then the requests whose bit is
set, whose responses `finishExecutePrePrepareMsg` sends. -/
def startPrePrepareMsgExecution (c : Committed) : Exec Outcome :=
  if c.ppMsg.requests.length = 0 then .ok ⟨none, [], replies⟩
  else do
    let requestSet := c.ppMsg.requests.map (cfg.ordinaryRequestBit replies)
    let numOfSpecialReqs := c.ppMsg.requests.countP isSpecial
    let descriptor ← cfg.setDescriptorOfLastExecution requestSet
    let (special, replies) ← cfg.executeSpecialRequests replies c.ppMsg numOfSpecialReqs
    let (handed, replies) ← cfg.executeRequestsAndSendResponses replies c.ppMsg requestSet
    .ok ⟨descriptor, special ++ handed, replies⟩

def startExecution (c : Committed) : Exec Outcome :=
  if cfg.enablePostExecutionSeparation then cfg.startPrePrepareMsgExecution replies c
  else cfg.executeRequestsInPrePrepareMsg replies c none

/-- `recoverRequests` after a restart that found the descriptor of an unfinished execution. The
pruning status is not persistent. -/
def recoverRequests (ppMsg : PrePrepareMsg) (currentPrimary : ReplicaId)
    (validRequests : List Bool) : Exec Outcome :=
  if 0 < ppMsg.requests.length ∧ validRequests.count true ≤ ppMsg.requests.length then
    cfg.executeRequestsInPrePrepareMsg replies ⟨ppMsg, currentPrimary, false⟩ (some validRequests)
  else .error .assertion

/-! ## What is handed over -/

theorem accumulateRequests_map {p : ClientRequestMsg → Bool} {requests l : List ClientRequestMsg}
    (h : accumulateRequests requests (requests.map p) = .ok l) :
    l = requests.filter fun req => p req && !req.isEmpty := by
  induction requests generalizing l with
  | nil =>
    rw [map_nil, accumulateRequests, ok.injEq] at h
    exact h.symm
  | cons req requests ih =>
    rw [map_cons, accumulateRequests] at h
    split_ifs at h with hbit hroom
    · rw [filter_cons_of_neg (by simpa [imp_iff_not_or] using hbit)]
      exact ih h
    · obtain ⟨l', hl', hcons⟩ := bind_eq_ok.mp h
      rw [filter_cons_of_pos (by simpa using hbit), ← ih hl']
      exact (ok.inj hcons).symm

theorem accumulateSpecialRequests_countP (requests : List ClientRequestMsg) :
    accumulateSpecialRequests (requests.countP isSpecial) requests = requests.filter isSpecial := by
  induction requests with
  | nil => rfl
  | cons req requests ih =>
    by_cases hreq : req.isSpecial
    · rw [countP_cons_of_pos hreq, filter_cons_of_pos hreq, accumulateSpecialRequests,
        if_pos hreq, ih]
    · rw [countP_cons_of_neg hreq, filter_cons_of_neg hreq, ← ih]
      rcases requests.countP isSpecial with _ | n
      · rw [accumulateSpecialRequests, accumulateSpecialRequests]
      · rw [accumulateSpecialRequests, if_neg hreq]

variable {cfg} {replies : Replies} {c : Committed} {r : Outcome}

theorem executeRequestsAndSendResponses_eq_ok {ppMsg : PrePrepareMsg} {requestSet : List Bool}
    {handed : List ClientRequestMsg} {replies' : Replies} :
    cfg.executeRequestsAndSendResponses replies ppMsg requestSet = .ok (handed, replies') ↔
      accumulateRequests ppMsg.requests requestSet = .ok handed ∧
        cfg.sendResponses replies handed = .ok replies' := by
  unfold executeRequestsAndSendResponses
  constructor
  · intro h
    obtain ⟨l, hl, h⟩ := bind_eq_ok.mp h
    obtain ⟨s, hs, h⟩ := bind_eq_ok.mp h
    obtain ⟨rfl, rfl⟩ := ok_mk_inj h
    exact ⟨hl, hs⟩
  · rintro ⟨hl, hs⟩
    rw [hl, ok_bind, hs, ok_bind]

theorem executeRequestsInPrePrepareMsg_eq_ok
    (h : cfg.executeRequestsInPrePrepareMsg replies c none = .ok r) :
    (r.descriptor = none ∧ r.handed = [] ∧
      (c.pruningProcessStatus = true ∨ c.ppMsg.requests = [])) ∨
    ∃ requestSet, requestSet = c.ppMsg.requests.map (cfg.requestBit replies c.currentPrimary) ∧
      c.pruningProcessStatus = false ∧
      cfg.setDescriptorOfLastExecution requestSet = .ok r.descriptor ∧
      accumulateRequests c.ppMsg.requests requestSet = .ok r.handed ∧
      cfg.sendResponses replies r.handed = .ok r.replies := by
  unfold executeRequestsInPrePrepareMsg at h
  split_ifs at h with hprune hlength hnone
  · rw [← ok.inj h]
    exact .inl ⟨rfl, rfl, .inl hprune⟩
  · rw [← ok.inj h]
    exact .inl ⟨rfl, rfl, .inr (length_eq_zero_iff.mp hlength)⟩
  · obtain ⟨descriptor, hdesc, h⟩ := bind_eq_ok.mp h
    obtain ⟨⟨handed, replies'⟩, hexec, h⟩ := bind_eq_ok.mp h
    obtain ⟨hacc, hsend⟩ := executeRequestsAndSendResponses_eq_ok.mp hexec
    rw [← ok.inj h]
    exact .inr ⟨_, rfl, by simpa using hprune, hdesc, hacc, hsend⟩

theorem startPrePrepareMsgExecution_eq_ok (h : cfg.startPrePrepareMsgExecution replies c = .ok r) :
    (r.descriptor = none ∧ r.handed = [] ∧ c.ppMsg.requests = []) ∨ ∃ requestSet handed replies',
      requestSet = c.ppMsg.requests.map (cfg.ordinaryRequestBit replies) ∧
      cfg.setDescriptorOfLastExecution requestSet = .ok r.descriptor ∧
      accumulateRequests c.ppMsg.requests requestSet = .ok handed ∧
      cfg.sendResponses replies' handed = .ok r.replies ∧
      r.handed = c.ppMsg.requests.filter isSpecial ++ handed := by
  unfold startPrePrepareMsgExecution executeSpecialRequests at h
  split_ifs at h with hlength
  · rw [← ok.inj h]
    exact .inl ⟨rfl, rfl, length_eq_zero_iff.mp hlength⟩
  · obtain ⟨descriptor, hdesc, h⟩ := bind_eq_ok.mp h
    obtain ⟨⟨special, replies'⟩, hspecial, h⟩ := bind_eq_ok.mp h
    obtain ⟨replies'', -, hspecial⟩ := bind_eq_ok.mp hspecial
    obtain ⟨rfl, rfl⟩ := ok_mk_inj hspecial
    obtain ⟨⟨handed, replies'⟩, hexec, h⟩ := bind_eq_ok.mp h
    obtain ⟨hacc, hsend⟩ := executeRequestsAndSendResponses_eq_ok.mp hexec
    rw [← ok.inj h, accumulateSpecialRequests_countP]
    exact .inr ⟨_, handed, replies'', rfl, hdesc, hacc, hsend, rfl⟩

end ExecutionConfig

end ConcordBft
