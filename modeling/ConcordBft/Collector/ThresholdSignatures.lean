import ConcordBft.Threshsign.EdDSA

/-!
# The collector of threshold signatures

The model of `CollectorOfThresholdSignatures` with an EdDSA verifier, of its two background jobs,
and of `SignedShareBase`, the messages with one signature share. A job is queued with copies of
its inputs; `onJobCompletion` executes it and delivers its result. The iteration orders of the two
hash maps, the collector's and the accumulator's, are parameters.
-/

namespace ConcordBft

open Verif Verif.Exec

/-! ## Messages with a signature -/

/-- A message with a share or a combined signature: the fields of the header that are read, and
the bytes after the header. -/
structure SignedShareBase where
  senderId : ReplicaId
  epochNum : UInt64
  spanContextSize : UInt32
  thresSigLength : UInt16
  rest : List UInt8

namespace SignedShareBase

/-- The bytes that `signatureBody` points to, `signatureLen` of them. -/
def signature (m : SignedShareBase) : List UInt8 :=
  (m.rest.drop m.spanContextSize.toNat).take m.thresSigLength.toNat

/-- `SignedShareBase::_validate`, also the checks of `FullCommitProofMsg::validate`. -/
def validate (m : SignedShareBase) (info : ReplicasInfo) : Bool :=
  decide (m.spanContextSize.toNat ≤ m.rest.length) &&
    decide (m.thresSigLength.toNat + m.spanContextSize.toNat ≤ m.rest.length) &&
    decide (m.senderId ≠ info.myId) && decide (m.epochNum = info.selfEpochNumber) &&
    info.isIdOfReplica m.senderId

end SignedShareBase

/-! ## Background jobs -/

inductive Job
  | signaturesProcessing (expectedDigest : Digest) (sigDataItems : List (List UInt8))
  | combinedSigVerification (expectedDigest : Digest) (combinedSig : List UInt8)
  deriving DecidableEq

inductive JobResult
  | combinedSigFailed (replicasWithBadSigs : List ReplicaId)
  | combinedSigSucceeded (combinedSig : List UInt8)
  | verifyCombinedSigResult (isValid : Bool)
  deriving DecidableEq

/-- The verifier of a job and the iteration order of the map of the accumulator. -/
structure JobContext where
  verifier : EdDSAMultisigVerifier
  shareOrder : IterationOrder SingleEdDSASignature

namespace JobContext

variable (ctx : JobContext)

/-- `(uint16_t)verifier->requiredLengthForSignedData()`. -/
def bufferSize : ℕ := ctx.verifier.requiredLengthForSignedData % 2 ^ 16

/-- One round of `SignaturesProcessingJob::execute`: accumulate the shares, write the combined
signature and verify it. -/
def combine (verification : Bool) (digest : Digest) (sigDataItems : List (List UInt8)) :
    Exec (EdDSASignatureAccumulator × List UInt8 × Bool) := do
  let acc ← EdDSASignatureAccumulator.addAll ctx.verifier ⟨verification, digest.bytes, [], []⟩
    sigDataItems
  let fullSignedData ← acc.getFullSignedData ctx.shareOrder ctx.bufferSize
  let valid ← ctx.verifier.verify digest.bytes fullSignedData
  return (acc, fullSignedData, valid)

/-- The set of `(uint16_t)shareId - 1`. -/
def replicasOfShares (invalidShares : List ℕ) : List ReplicaId :=
  OrdSet.ofList (fun a b => decide (a < b)) (invalidShares.map fun id => UInt16.ofNat id - 1)

def executeSignaturesProcessing (digest : Digest) (sigDataItems : List (List UInt8)) :
    Exec JobResult := do
  let (_, fullSignedData, valid) ← ctx.combine false digest sigDataItems
  if valid then return .combinedSigSucceeded fullSignedData
  else
    let (acc, fullSignedData, valid) ← ctx.combine true digest sigDataItems
    if valid then return .combinedSigSucceeded fullSignedData
    else return .combinedSigFailed (replicasOfShares acc.invalidShares)

def executeCombinedSigVerification (digest : Digest) (combinedSig : List UInt8) :
    Exec JobResult := do
  let succ ← ctx.verifier.verify digest.bytes combinedSig
  return .verifyCombinedSigResult succ

def execute : Job → Exec JobResult
  | .signaturesProcessing digest items => ctx.executeSignaturesProcessing digest items
  | .combinedSigVerification digest sig => ctx.executeCombinedSigVerification digest sig

end JobContext

/-! ## The collector -/

inductive SigState
  | unknown
  | invalid
  deriving DecidableEq

/-- An entry of `replicasInfo`. The message is absent in an entry that marking created. -/
structure RepInfo where
  repId : ReplicaId
  partialSig : Option (List UInt8)
  state : SigState
  deriving DecidableEq

structure CollectorContext extends JobContext where
  numOfRequiredSigs : ℕ
  infoOrder : IterationOrder RepInfo

structure Collector where
  /-- The job in the background, `processingSignaturesInTheBackground`. -/
  job : Option Job := none
  numberOfUnknownSignatures : ℕ := 0
  replicasInfo : List RepInfo := []
  combinedValidSignature : Option (List UInt8) := none
  candidateCombinedSignature : Option (List UInt8) := none
  /-- Sequence number, view and digest, once they are known. -/
  expected : Option (ℤ × ℤ × Digest) := none
  deriving DecidableEq

namespace Collector

variable (ctx : CollectorContext) (c : Collector)

def hasPartialMsgFromReplica (repId : ReplicaId) : Bool :=
  c.replicasInfo.any fun info => info.repId == repId

/-- The loop over `replicasInfo` that fills a job, with `numOfPartSigsInJob` shares in it. -/
def jobItems (numOfRequiredSigs : ℕ) : ℕ → List RepInfo → Exec (List (List UInt8))
  | _, [] => .ok []
  | numOfPartSigsInJob, info :: infos =>
    if info.state = .invalid then
      if numOfPartSigsInJob = numOfRequiredSigs then .ok []
      else jobItems numOfRequiredSigs numOfPartSigsInJob infos
    else match info.partialSig with
      | none => .error .buffer
      | some sig => do
        ensure (decide (numOfPartSigsInJob < numOfRequiredSigs))
        if numOfPartSigsInJob + 1 = numOfRequiredSigs then return [sig]
        let items ← jobItems numOfRequiredSigs (numOfPartSigsInJob + 1) infos
        return sig :: items

def trySendToBkThread : Exec Collector := do
  ensure (!c.combinedValidSignature.isSome)
  if c.job.isSome then return c
  match c.expected with
  | none => return c
  | some (_, _, digest) =>
    match c.candidateCombinedSignature with
    | some sig => return { c with job := some (.combinedSigVerification digest sig) }
    | none =>
      if ctx.numOfRequiredSigs ≤ c.numberOfUnknownSignatures then
        let items ← jobItems ctx.numOfRequiredSigs 0 (ctx.infoOrder.order c.replicasInfo)
        ensure (decide (items.length = ctx.numOfRequiredSigs))
        return { c with job := some (.signaturesProcessing digest items) }
      else return c

/-- The new entry of `addMsgWithPartialSignature`. -/
def storeShare (partialSig : List UInt8) (repId : ReplicaId) : Collector :=
  { c with
    replicasInfo := c.replicasInfo ++ [⟨repId, some partialSig, .unknown⟩]
    numberOfUnknownSignatures := (c.numberOfUnknownSignatures + 1) % 2 ^ 16 }

def addMsgWithPartialSignature (partialSig : List UInt8) (repId : ReplicaId) :
    Exec (Bool × Collector) :=
  if c.combinedValidSignature.isSome || c.hasPartialMsgFromReplica repId then .ok (false, c)
  else do
    let c ← trySendToBkThread ctx (c.storeShare partialSig repId)
    return (true, c)

def addMsgWithCombinedSignature (combinedSig : List UInt8) : Exec (Bool × Collector) :=
  if c.combinedValidSignature.isSome || c.candidateCombinedSignature.isSome then .ok (false, c)
  else do
    let c ← trySendToBkThread ctx { c with candidateCombinedSignature := some combinedSig }
    return (true, c)

def setExpected (seqNumber view : ℤ) (digest : Digest) : Exec Collector := do
  ensure (decide (seqNumber ≠ 0))
  ensure (!c.expected.isSome)
  ensure (!c.job.isSome)
  trySendToBkThread ctx { c with expected := some (seqNumber, view, digest) }

/-- `replicasInfo[repId].state = SigState::Invalid`; the access creates a missing entry. -/
def markInvalid (infos : List RepInfo) (repId : ReplicaId) : List RepInfo :=
  if infos.any fun info => info.repId == repId then
    infos.map fun info => if info.repId = repId then { info with state := .invalid } else info
  else infos ++ [⟨repId, none, .invalid⟩]

def markOne (repId : ReplicaId) : Collector :=
  { c with
    replicasInfo := markInvalid c.replicasInfo repId
    numberOfUnknownSignatures := (c.numberOfUnknownSignatures + (2 ^ 16 - 1)) % 2 ^ 16 }

def markAllInvalid (replicasWithBadSigs : List ReplicaId) : Collector :=
  replicasWithBadSigs.foldl markOne c

/-- The three `onCompletion` methods. -/
def onCompletion (result : JobResult) : Exec Collector := do
  ensure c.job.isSome
  ensure (!c.combinedValidSignature.isSome)
  let c := { c with job := none }
  match result with
  | .combinedSigFailed replicasWithBadSigs =>
    trySendToBkThread ctx (c.markAllInvalid replicasWithBadSigs)
  | .combinedSigSucceeded combinedSig =>
    return { c with candidateCombinedSignature := none, combinedValidSignature := some combinedSig }
  | .verifyCombinedSigResult isValid =>
    ensure c.candidateCombinedSignature.isSome
    if isValid then
      return { c with
        combinedValidSignature := c.candidateCombinedSignature, candidateCombinedSignature := none }
    else trySendToBkThread ctx { c with candidateCombinedSignature := none }

/-- The job in the background, if there is one, is executed and its result is delivered. -/
def onJobCompletion : Exec Collector :=
  match c.job with
  | none => .ok c
  | some job => do
    let result ← ctx.execute job
    onCompletion ctx c result

/-! ## Runs -/

inductive Op
  | addMsgWithPartialSignature (partialSig : List UInt8) (repId : ReplicaId)
  | addMsgWithCombinedSignature (combinedSig : List UInt8)
  | setExpected (seqNumber view : ℤ) (digest : Digest)
  | jobCompletion

def step : Op → Exec Collector
  | .addMsgWithPartialSignature sig repId =>
    do return (← addMsgWithPartialSignature ctx c sig repId).2
  | .addMsgWithCombinedSignature sig => do return (← addMsgWithCombinedSignature ctx c sig).2
  | .setExpected seqNumber view digest => setExpected ctx c seqNumber view digest
  | .jobCompletion => onJobCompletion ctx c

def run (ops : List Op) : Exec Collector := Exec.run (step ctx) {} ops

end Collector

end ConcordBft
