import ConcordBft.Lib.Buffer
import ConcordBft.Messages.PrePrepare

/-!
# View change messages as bytes

The model of `ViewChangeMsg.cpp`: `validate` with its two structural checks, the digest and the two
iterators. A message is its bytes. The header is read at its fixed offsets; every other read goes
through `read`, which stops the process outside the message. Locations are numbers, lengths are the
32-bit words that the code computes with.
-/

namespace ConcordBft.Wire

open Verif Verif.Exec

/-- A received message; its size is a `MsgSize`. -/
structure ViewChangeMsg where
  bytes : List UInt8
  size_lt : bytes.length < 2 ^ 32

/-- The `int64_t` with these bits. -/
@[irreducible] def int64 (n : ℤ) : ℤ := n.bmod (2 ^ 64)

inductive ViewChangeError
  | basic
  | size
  | verifySig
  | elements
  | complaints
  deriving DecidableEq

namespace ViewChangeMsg

variable (m : ViewChangeMsg)

def size : ℕ := m.bytes.length

/-- The number in the `len` bytes from `off` on. -/
def field (off len : ℕ) : ℕ := leNat ((m.bytes.drop off).take len)

/-- The same number, read by the code. -/
def read (off len : ℕ) : Exec ℕ := leNat <$> slice m.bytes off len

/-! ## The header, of 44 bytes -/

def sizeOfHeader : ℕ := 44

def spanContextSize : ℕ := m.field 2 4

def idOfGeneratedReplica : ReplicaId := UInt16.ofNat (m.field 6 2)

def newView : ℤ := int64 (m.field 8 8)

def lastStable : ℤ := int64 (m.field 16 8)

def epochNum : UInt64 := UInt64.ofNat (m.field 24 8)

def numberOfComplaints : ℕ := m.field 32 2

def sizeOfAllComplaints : ℕ := m.field 34 4

def numberOfElements : ℕ := m.field 38 2

def locationAfterLast : ℕ := m.field 40 4

def elementsBegin : ℕ := sizeOfHeader + m.spanContextSize

def getBodySize : ℕ :=
  if m.locationAfterLast = 0 then m.elementsBegin % 2 ^ 32 else m.locationAfterLast

def getMsgDigest (gen : DigestGenerator) : Exec (List UInt8) :=
  gen.compute <$> slice m.bytes 0 ((m.getBodySize + m.sizeOfAllComplaints) % 2 ^ 32)

/-! ## Elements

An element has 49 bytes: its sequence number, a digest, the view it comes from and a flag. If the
flag is set, a certificate follows: its view, the length of its signature and the signature. -/

def sizeOfElement : ℕ := 49

def sizeOfPreparedCertificate : ℕ := 10

/-- The largest sequence number that an element may have. -/
def windowEnd : ℤ := int64 (m.lastStable + kWorkWindowSize)

/-- The body of the loop of `checkElements`: `none` to return false, or the remaining bytes, the
next location and the sequence number. -/
def checkElement (remainingBytes currLoc : ℕ) (lastSeqNumInMsg : ℤ) :
    Exec (Option (ℕ × ℕ × ℤ)) := do
  let seqNum := int64 (← m.read currLoc 8)
  if seqNum ≤ lastSeqNumInMsg then return none
  if seqNum > m.windowEnd then return none
  let originView := int64 (← m.read (currLoc + 40) 8)
  if originView ≥ m.newView then return none
  let remainingBytes := remainingBytes - sizeOfElement
  let hasPreparedCertificate ← m.read (currLoc + 48) 1
  let currLoc := currLoc + sizeOfElement
  if hasPreparedCertificate = 0 then return some (remainingBytes, currLoc, seqNum)
  if remainingBytes < sizeOfPreparedCertificate then return none
  let certificateView := int64 (← m.read currLoc 8)
  if certificateView > originView then return none
  let certificateSigLength ← m.read (currLoc + 8) 2
  if certificateSigLength = 0 then return none
  let s := sizeOfPreparedCertificate + certificateSigLength
  if remainingBytes < s then return none
  return some (remainingBytes - s, currLoc + s, seqNum)

/-- The loop of `checkElements`, with the number of elements still to come. -/
def elementsLoop : ℕ → ℕ → ℕ → ℤ → Exec (Option ℕ)
  | 0, remainingBytes, _, _ => .ok (some remainingBytes)
  | n + 1, remainingBytes, currLoc, lastSeqNumInMsg =>
    if remainingBytes < sizeOfElement then .ok none
    else do
      match ← m.checkElement remainingBytes currLoc lastSeqNumInMsg with
      | none => return none
      | some (remainingBytes, currLoc, seqNum) =>
        elementsLoop n remainingBytes currLoc seqNum

variable (sigSize : UInt16)

def checkElements : Exec Bool := do
  let remainingBytes := wrapSub 32 m.size (sigSize.toNat + m.elementsBegin)
  match ← m.elementsLoop m.numberOfElements remainingBytes m.elementsBegin m.lastStable with
  | none => return false
  | some remainingBytes =>
    if m.numberOfElements > 0 then
      return m.locationAfterLast == wrapSub 32 m.size (sigSize.toNat + remainingBytes)
    else return m.locationAfterLast == 0

/-! ## Complaints -/

/-- `sizeOfHeader<ReplicaAsksToLeaveViewMsg>()`. -/
def sizeOfComplaintHeader : ℕ := 27

/-- The loop of `checkComplaints`, with the number of complaints still to come. -/
def complaintsLoop : ℕ → ℕ → ℕ → Exec (Option ℕ)
  | 0, remainingBytes, _ => .ok (some remainingBytes)
  | n + 1, remainingBytes, currLoc =>
    if remainingBytes > sizeOfComplaintHeader then do
      let complaintSize ← m.read currLoc 4
      if complaintSize ≤ sizeOfComplaintHeader then return none
      complaintsLoop n (wrapSub 32 (wrapSub 32 remainingBytes 4) complaintSize)
        (currLoc + 4 + complaintSize)
    else .ok none

def checkComplaints : Exec Bool := do
  let bodySize := m.getBodySize
  let remainingBytes := wrapSub 32 m.size (sigSize.toNat + bodySize)
  match ← m.complaintsLoop m.numberOfComplaints remainingBytes (bodySize + sigSize.toNat) with
  | none => return false
  | some remainingBytes => return remainingBytes == 0

/-- The two checks, as `validate` and `finalizeMessage` make them. -/
def structuralChecks : Exec Bool := do
  if ← m.checkElements sigSize then m.checkComplaints sigSize else return false

/-! ## Validation -/

/-- `size() >= sizeof(Header) + spanContextSize()`, and the comparison with the signed part, whose
sum is a 32-bit word. -/
def passesSizeChecks : Bool :=
  m.elementsBegin ≤ m.size && (m.getBodySize + sigSize.toNat) % 2 ^ 32 ≤ m.size

def validate (info : ReplicasInfo) (sigs : SigManager) : Exec (Except ViewChangeError Unit) := do
  let id := m.idOfGeneratedReplica
  if m.size < m.elementsBegin || !info.isIdOfReplica id || id == info.myId ||
      m.epochNum != info.selfEpochNumber then
    return .error .basic
  let dataLength := m.getBodySize
  let sigLen := sigs.getSigLength id
  if m.size < (dataLength + sigLen.toNat) % 2 ^ 32 then return .error .size
  if !sigs.verifySig id (m.bytes.take dataLength)
      ((m.bytes.drop dataLength).take sigLen.toNat) then
    return .error .verifySig
  if !(← m.checkElements sigLen) then return .error .elements
  if !(← m.checkComplaints sigLen) then return .error .complaints
  return .ok ()

/-- What `validate` asks for before it looks at elements and complaints. -/
def passesHeaderChecks (info : ReplicasInfo) (sigs : SigManager) : Bool :=
  let id := m.idOfGeneratedReplica
  let sigLen := sigs.getSigLength id
  info.isIdOfReplica id && id != info.myId && m.epochNum == info.selfEpochNumber &&
    m.passesSizeChecks sigLen && sigs.verifySig id (m.bytes.take m.getBodySize)
      ((m.bytes.drop m.getBodySize).take sigLen.toNat)

/-! ## Iterators -/

structure ElementsIterator where
  endLoc : ℕ
  currLoc : ℕ
  nextElementNum : ℕ

namespace ElementsIterator

def make : Exec ElementsIterator := do
  if m.numberOfElements = 0 then return ⟨0, 0, 1⟩
  let endLoc := m.locationAfterLast
  let currLoc := m.elementsBegin % 2 ^ 32
  ensure (endLoc > currLoc)
  return ⟨endLoc, currLoc, 1⟩

def isEnd (it : ElementsIterator) : Exec Bool := do
  if it.currLoc ≥ it.endLoc then
    ensure ((it.nextElementNum : ℤ) - 1 == m.numberOfElements)
    return true
  return false

/-- The location of the element and the iterator after it. -/
def getAndGoToNext (it : ElementsIterator) : Exec (Option ℕ × ElementsIterator) := do
  if ← it.isEnd m then return (none, it)
  let remainingbytes := it.endLoc - it.currLoc
  ensure (remainingbytes ≥ sizeOfElement)
  let hasPreparedCertificate ← m.read (it.currLoc + 48) 1
  let nextElementNum := (it.nextElementNum + 1) % 2 ^ 16
  let currLoc := (it.currLoc + sizeOfElement) % 2 ^ 32
  if hasPreparedCertificate = 0 then
    return (some it.currLoc, { it with currLoc, nextElementNum })
  ensure (remainingbytes ≥ sizeOfElement + sizeOfPreparedCertificate)
  let certificateSigLength ← m.read (currLoc + 8) 2
  ensure (remainingbytes ≥ sizeOfElement + sizeOfPreparedCertificate + certificateSigLength)
  return (some it.currLoc, { it with
    currLoc := (currLoc + (sizeOfPreparedCertificate + certificateSigLength)) % 2 ^ 32
    nextElementNum })

end ElementsIterator

structure ComplaintsIterator where
  endLoc : ℕ
  currLoc : ℕ
  nextComplaintNum : ℕ

namespace ComplaintsIterator

def make (mySigLength : UInt16) : Exec ComplaintsIterator := do
  if m.numberOfComplaints = 0 then return ⟨0, 0, 1⟩
  let endLoc := m.size
  let currLoc := (m.getBodySize + mySigLength.toNat) % 2 ^ 32
  ensure (endLoc > currLoc)
  return ⟨endLoc, currLoc, 1⟩

variable (it : ComplaintsIterator)

def isEnd : Exec Bool := do
  if it.currLoc ≥ it.endLoc then
    ensure ((it.nextComplaintNum : ℤ) - 1 == m.numberOfComplaints)
    return true
  return false

/-- The location of the complaint, whose size and bytes are read. -/
def getCurrent : Exec (Option ℕ) := do
  if ← it.isEnd m then return none
  let size ← m.read it.currLoc 4
  let remainingbytes := wrapSub 32 (it.endLoc - it.currLoc) 4
  ensure (remainingbytes ≥ size)
  let _ ← slice m.bytes (it.currLoc + 4) size
  return some it.currLoc

def gotoNext : Exec ComplaintsIterator := do
  if ← it.isEnd m then return it
  let size ← m.read it.currLoc 4
  let remainingbytes := wrapSub 32 (it.endLoc - it.currLoc) 4
  ensure (remainingbytes ≥ size)
  return { it with
    currLoc := (it.currLoc + 4 + size) % 2 ^ 32
    nextComplaintNum := (it.nextComplaintNum + 1) % 2 ^ 16 }

def getAndGoToNext : Exec (Option ℕ × ComplaintsIterator) := do
  let retVal ← it.getCurrent m
  let it ← it.gotoNext m
  return (retVal, it)

end ComplaintsIterator

end ViewChangeMsg

end ConcordBft.Wire
