import ConcordBft.Types

/-!
# Client requests and PrePrepare messages

The model of `ClientRequestMsg::validateImp`, `PrePrepareMsg::validate` and
`PrePrepareMsg::calculateDigestOfRequests`. A client request is its bytes, whose header is read
field by field, in front of the rest of the message. A PrePrepare message is its decoded header and
its requests, which follow each other up to `endLocationOfLastRequest`: what `checkRequests` accepts
has this form unless a location wraps (`Tiled.decode`). The digest function and the
signature manager are parameters.
-/

namespace ConcordBft

/-! ## Client requests -/

namespace MsgFlag

def HAS_PRE_PROCESSED_FLAG : UInt64 := 0x4
def KEY_EXCHANGE_FLAG : UInt64 := 0x8
def RECONFIG_FLAG : UInt64 := 0x20
def INTERNAL_FLAG : UInt64 := 0x40
def CLIENTS_PUB_KEYS_FLAG : UInt64 := 0x100

/-- `(flags & flag) != 0`. -/
def has (flags flag : UInt64) : Bool := decide (flags &&& flag ≠ 0)

end MsgFlag

/-- The fields of `ClientRequestMsgHeader`, packed into 52 bytes. -/
structure ClientRequestMsgHeader where
  msgType : UInt16
  spanContextSize : UInt32
  idOfClientProxy : UInt16
  flags : UInt64
  result : UInt32
  reqSeqNum : UInt64
  requestLength : UInt32
  timeoutMilli : UInt64
  cidLength : UInt32
  reqSignatureLength : UInt16
  extraDataLength : UInt32
  indexInBatch : UInt16
  deriving DecidableEq

namespace ClientRequestMsgHeader

def read (b : List UInt8) : ClientRequestMsgHeader where
  msgType := UInt16.ofNat (leNat (b.take 2))
  spanContextSize := UInt32.ofNat (leNat ((b.drop 2).take 4))
  idOfClientProxy := UInt16.ofNat (leNat ((b.drop 6).take 2))
  flags := UInt64.ofNat (leNat ((b.drop 8).take 8))
  result := UInt32.ofNat (leNat ((b.drop 16).take 4))
  reqSeqNum := UInt64.ofNat (leNat ((b.drop 20).take 8))
  requestLength := UInt32.ofNat (leNat ((b.drop 28).take 4))
  timeoutMilli := UInt64.ofNat (leNat ((b.drop 32).take 8))
  cidLength := UInt32.ofNat (leNat ((b.drop 40).take 4))
  reqSignatureLength := UInt16.ofNat (leNat ((b.drop 44).take 2))
  extraDataLength := UInt32.ofNat (leNat ((b.drop 46).take 4))
  indexInBatch := UInt16.ofNat (leNat ((b.drop 50).take 2))

/-- `sizeof(ClientRequestMsgHeader)` and the lengths that the header states. -/
def compRequestMsgSize (h : ClientRequestMsgHeader) : ℕ :=
  52 + h.spanContextSize.toNat + h.requestLength.toNat + h.cidLength.toNat +
    h.reqSignatureLength.toNat + h.extraDataLength.toNat

end ClientRequestMsgHeader

/-- A request is as long as its header states, in 32 bits. -/
structure ClientRequestMsg where
  bytes : List UInt8
  /-- The bytes of the message that follow the request. -/
  beyond : List UInt8
  size_eq : bytes.length =
    (ClientRequestMsgHeader.read (bytes ++ beyond)).compRequestMsgSize % 2 ^ 32
  deriving DecidableEq

/-- Why a request is refused; a failed assertion stops the process. -/
inductive RequestError
  | assertion
  | invalidMessageSize
  | invalidClientId
  | invalidSenderId
  | invalidExpectedSigLen
  | unexpectedSignatureLength
  | signatureVerificationFailed
  deriving DecidableEq

/-- What the validation of requests asks about replicas and clients. -/
structure PrincipalsInfo extends ReplicasInfo where
  cVal : ℕ
  isIdOfPeerRoReplica : UInt16 → Bool
  isIdOfExternalClient : UInt16 → Bool
  maxValidPrincipalId : UInt16

structure SigManager where
  isClientTransactionSigningEnabled : Bool
  getSigLength : UInt16 → UInt16
  verifySig : UInt16 → List UInt8 → List UInt8 → Bool

namespace ClientRequestMsg

variable (req : ClientRequestMsg)

/-- What can be read from the request on. -/
def memory : List UInt8 := req.bytes ++ req.beyond

def header : ClientRequestMsgHeader := ClientRequestMsgHeader.read req.memory

def size : ℕ := req.bytes.length

def requestBuf : List UInt8 :=
  (req.memory.drop (52 + req.header.spanContextSize.toNat)).take req.header.requestLength.toNat

def signatureLocation : ℕ := 52 + req.header.spanContextSize.toNat +
  req.header.requestLength.toNat + req.header.cidLength.toNat

/-- `requestSignature`, `none` for a null pointer. -/
def requestSignature : Option (List UInt8) :=
  if req.header.reqSignatureLength = 0 then none
  else some ((req.memory.drop req.signatureLocation).take req.header.reqSignatureLength.toNat)

/-- The signature lies in the message. -/
def signatureInside : Bool := req.header.reqSignatureLength = 0 ||
  decide (req.signatureLocation + req.header.reqSignatureLength.toNat ≤ req.memory.length)

/-- The flag that is set lets requests of replicas through without further checks. -/
def isInternal : Bool :=
  MsgFlag.has req.header.flags MsgFlag.RECONFIG_FLAG ||
    MsgFlag.has req.header.flags MsgFlag.INTERNAL_FLAG

/-- The expected length of the signature and whether it is verified. -/
def expectedSignature (info : PrincipalsInfo) (sigs : SigManager) :
    Except RequestError (UInt16 × Bool) :=
  let clientId := req.header.idOfClientProxy
  if !info.isIdOfExternalClient clientId then .ok (0, false)
  else if MsgFlag.has req.header.flags MsgFlag.RECONFIG_FLAG then
    .ok (req.header.reqSignatureLength, false)
  else if !sigs.isClientTransactionSigningEnabled then .ok (0, false)
  else if req.header.requestLength = 0 then .ok (0, false)
  else if sigs.getSigLength clientId = 0 then .error .invalidExpectedSigLen
  else .ok (sigs.getSigLength clientId,
    !MsgFlag.has req.header.flags MsgFlag.HAS_PRE_PROCESSED_FLAG)

/-- `validateImp` for a message that `senderId` sent. -/
def validateFrom (senderId : UInt16) (info : PrincipalsInfo) (sigs : SigManager) :
    Except RequestError Unit := do
  let header := req.header
  let clientId := header.idOfClientProxy
  if req.size < 52 + header.spanContextSize.toNat then throw .invalidMessageSize
  if !req.isInternal && senderId == info.myId then throw .assertion
  let minMsgSize := 52 + header.cidLength.toNat + header.spanContextSize.toNat +
    header.reqSignatureLength.toNat
  if req.size < minMsgSize then throw .invalidMessageSize
  if req.isInternal && (info.isIdOfReplica clientId || info.isIdOfPeerRoReplica clientId) then
    return ()
  if info.maxValidPrincipalId < clientId then throw .invalidClientId
  if info.maxValidPrincipalId < senderId then throw .invalidSenderId
  let (expectedSigLen, doSigVerify) ← req.expectedSignature info sigs
  if expectedSigLen ≠ header.reqSignatureLength then throw .unexpectedSignatureLength
  let expectedMsgSize := 52 + header.requestLength.toNat + header.cidLength.toNat +
    header.spanContextSize.toNat + expectedSigLen.toNat + header.extraDataLength.toNat
  if req.size < minMsgSize ∨ req.size ≠ expectedMsgSize then throw .invalidMessageSize
  if doSigVerify && !sigs.verifySig clientId req.requestBuf (req.requestSignature.getD []) then
    throw .signatureVerificationFailed

/-- The sender of a request inside a PrePrepare message is its client. -/
def validateImp (info : PrincipalsInfo) (sigs : SigManager) : Except RequestError Unit :=
  req.validateFrom req.header.idOfClientProxy info sigs

end ClientRequestMsg

/-! ## PrePrepare messages -/

/-- The requests stand one behind the other, before the trailing bytes. -/
def LaidOut (trailing : List UInt8) : List ClientRequestMsg → Prop
  | [] => True
  | req :: requests =>
    req.beyond = requests.flatMap ClientRequestMsg.bytes ++ trailing ∧ LaidOut trailing requests

theorem LaidOut.size_add_le {trailing : List UInt8} {requests : List ClientRequestMsg}
    (h : LaidOut trailing requests) {req : ClientRequestMsg} (hreq : req ∈ requests) :
    req.size + req.beyond.length ≤ (requests.map ClientRequestMsg.size).sum + trailing.length := by
  induction requests with
  | nil => cases hreq
  | cons first requests ih =>
    rw [List.map_cons, List.sum_cons]
    rcases List.mem_cons.mp hreq with rfl | hreq
    · rw [h.1, List.length_append, List.length_flatMap]
      exact Nat.le_of_eq (Nat.add_assoc _ _ _).symm
    · have hle := ih h.2 hreq
      omega

/-- `DigestGenerator::compute` into `sizeof(Digest)` bytes. -/
structure DigestGenerator where
  compute : List UInt8 → List UInt8
  length_compute : ∀ data, (compute data).length = 32

structure PrePrepareMsg where
  senderId : ReplicaId
  viewNum : UInt64
  seqNum : UInt64
  epochNum : UInt64
  flags : UInt16
  time : UInt64
  digestOfRequests : List UInt8
  spanContext : List UInt8
  batchCid : List UInt8
  requests : List ClientRequestMsg
  /-- The bytes after the last request. -/
  trailing : List UInt8
  laidOut : LaidOut trailing requests
  /-- `numberOfRequests` has 16 bits. -/
  numberOfRequests_lt : requests.length < 2 ^ 16
  /-- The size of a message has 32 bits. -/
  size_lt : 86 + batchCid.length + spanContext.length + (requests.map ClientRequestMsg.size).sum +
    trailing.length < 2 ^ 32

inductive PrePrepareError
  | assertion
  | basic
  | advanced
  | access
  | digest
  | request (error : RequestError)
  deriving DecidableEq

namespace PrePrepareMsg

theorem length_singleton_lt (req : ClientRequestMsg) : [req].length < 2 ^ 16 := by
  rw [List.length_singleton]
  decide

variable (m : PrePrepareMsg)

/-- `sizeof(Header) = 86`, the correlation id of the batch and the span context. -/
def payloadShift : ℕ := 86 + m.batchCid.length + m.spanContext.length

def endLocationOfLastRequest : ℕ := m.payloadShift + (m.requests.map ClientRequestMsg.size).sum

def size : ℕ := m.endLocationOfLastRequest + m.trailing.length

/-- What a request adds to the digest: its signature, or the digest of its bytes. -/
def sigOrDigestOfRequest (gen : DigestGenerator) (req : ClientRequestMsg) : List UInt8 :=
  match req.requestSignature with
  | some sig => sig
  | none => gen.compute req.bytes

def calculateDigestOfRequests (gen : DigestGenerator) : List UInt8 :=
  gen.compute (m.requests.flatMap (sigOrDigestOfRequest gen))

def isNull : Bool := decide (m.flags &&& 0x1 = 0)

def isReady : Bool := decide ((m.flags >>> 1) &&& 0x1 = 1)

def firstPath : UInt16 := (m.flags >>> 2) &&& 0x3

def FAST_WITH_THRESHOLD : UInt16 := 1

def validateRequests (info : PrincipalsInfo) (sigs : SigManager) :
    List ClientRequestMsg → Except PrePrepareError Unit
  | [] => .ok ()
  | req :: requests =>
    match req.validateImp info sigs with
    | .error e => .error (.request e)
    | .ok () => validateRequests info sigs requests

/-- The conditions whose failure is reported as `advanced`. -/
def advanced (info : PrincipalsInfo) : Bool :=
  decide (m.seqNum ≠ 0) && !m.isNull && m.isReady && decide (m.firstPath < 3) &&
    !(decide (m.firstPath = FAST_WITH_THRESHOLD) && decide (info.cVal = 0)) &&
    decide (m.flags >>> 4 = 0) && decide (m.endLocationOfLastRequest ≤ m.size) &&
    decide (m.requests.length ≠ 0) && decide (m.requests.length < m.endLocationOfLastRequest)

def validate (gen : DigestGenerator) (info : PrincipalsInfo) (sigs : SigManager) :
    Except PrePrepareError Unit :=
  if m.senderId = info.myId then .error .assertion
  else if m.size < 86 + m.spanContext.length ∨ info.isIdOfReplica m.senderId = false ∨
      m.epochNum ≠ info.selfEpochNumber then .error .basic
  else if m.advanced info = false then .error .advanced
  -- a signature is read where its request says it is
  else if m.requests.all ClientRequestMsg.signatureInside = false then .error .access
  else if m.calculateDigestOfRequests gen ≠ m.digestOfRequests then .error .digest
  else if sigs.isClientTransactionSigningEnabled then validateRequests info sigs m.requests
  else .ok ()

end PrePrepareMsg

end ConcordBft
