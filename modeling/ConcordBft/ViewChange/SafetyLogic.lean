import ConcordBft.Lib.Exec
import ConcordBft.Lib.OrdMap
import ConcordBft.Types

/-!
# The safety logic of a view change

The model of `ViewChangeMsg` and `ViewChangeSafetyLogic`. A `ViewChangeMsg` is its decoded
content; an `ElementsIterator` is the list of the elements it has not passed yet.

`computeRestrictions` walks the sequence numbers of the working window with one iterator per
message. For each sequence number `computeRestrictionsForSeqNum` collects the prepared
certificates in an ordered set, selects the first one of the set that the threshold verifier
accepts, counts the fast path votes above it, and advances the iterators. The threshold verifier
is a parameter.
-/

namespace ConcordBft

open Verif Verif.Exec

/-! ## View change messages -/

structure PreparedCertificate where
  certificateView : ℤ
  /-- The signature; `certificateSigLength` is its length. -/
  certificateSig : List UInt8
  deriving DecidableEq, Repr

structure Element where
  seqNum : ℤ
  prePrepareDigest : Digest
  originView : ℤ
  /-- Present exactly when `hasPreparedCertificate` is set. -/
  preparedCertificate : Option PreparedCertificate
  deriving DecidableEq, Repr

structure ViewChangeMsg where
  newView : ℤ
  lastStable : ℤ
  elements : List Element
  deriving DecidableEq, Repr

namespace ViewChangeMsg

def checkElement (m : ViewChangeMsg) (lastSeqNumInMsg : ℤ) (e : Element) : Bool :=
  decide (lastSeqNumInMsg < e.seqNum) && decide (e.seqNum ≤ m.lastStable + kWorkWindowSize) &&
    decide (e.originView < m.newView) &&
    e.preparedCertificate.all fun c =>
      decide (c.certificateView ≤ e.originView) && decide (c.certificateSig.length ≠ 0)

def checkElementsFrom (m : ViewChangeMsg) : ℤ → List Element → Bool
  | _, [] => true
  | lastSeqNumInMsg, e :: es => m.checkElement lastSeqNumInMsg e && m.checkElementsFrom e.seqNum es

def checkElements (m : ViewChangeMsg) : Bool := m.checkElementsFrom m.lastStable m.elements

end ViewChangeMsg

/-- The elements an iterator has not passed yet; the first one is the current one. -/
abbrev ElementsIterator := List Element

def ElementsIterator.goToAtLeast (lowerBound : ℤ) (it : ElementsIterator) : ElementsIterator :=
  it.dropWhile fun e => decide (e.seqNum < lowerBound)

/-! ## Slow path certificates -/

structure SlowElem where
  e : Element
  c : PreparedCertificate
  deriving DecidableEq, Repr

def slowElemCompare (lhs rhs : SlowElem) : Bool :=
  if lhs.c.certificateView ≠ rhs.c.certificateView then
    decide (lhs.c.certificateView > rhs.c.certificateView)
  else decide (lhs.e.prePrepareDigest < rhs.e.prePrepareDigest)

def checkSlowPathCertificates : List SlowElem → Exec Bool
  | [] | [_] => .ok true
  | last :: e :: l => do
    if e.c.certificateView > last.c.certificateView then return false
    if e.c.certificateView = last.c.certificateView then
      ensure (decide (e.e.seqNum = last.e.seqNum))
    checkSlowPathCertificates (e :: l)

/-! ## The safety logic -/

structure Restriction where
  isNull : Bool
  digest : Digest
  deriving DecidableEq, Repr

/-- `IThresholdVerifier::verify` of the verifier for the slow path commit of a sequence number. -/
abbrev SlowPathVerify := ℤ → Digest → List UInt8 → Exec Bool

structure ViewChangeSafetyLogic where
  N : UInt16
  F : UInt16
  C : UInt16
  nullDigest : Digest
  numReplicas : N.toNat = 3 * F.toNat + 2 * C.toNat + 1

/-- The assertion `validElem && elem->seqNum >= s` on the current element of an iterator. -/
def currentAtLeast (s : ℤ) (it : ElementsIterator) : Exec Element :=
  match it with
  | [] => .error .assertion
  | e :: _ => do
    ensure (decide (s ≤ e.seqNum))
    return e

/-- The loop that collects the slow certificates. -/
def collectSlow (s : ℤ) : List ElementsIterator → List SlowElem → Exec (List SlowElem)
  | [], slowPathCertificates => .ok slowPathCertificates
  | it :: its, slowPathCertificates => do
    let elem ← currentAtLeast s it
    match elem.preparedCertificate with
    | some c =>
      if elem.seqNum = s then
        collectSlow s its (OrdSet.insert slowElemCompare ⟨elem, c⟩ slowPathCertificates)
      else collectSlow s its slowPathCertificates
    | none => collectSlow s its slowPathCertificates

/-- The loop that selects a prepared certificate. -/
def selectSlow (verify : SlowPathVerify) (s : ℤ) : List SlowElem → Exec (Option SlowElem)
  | [] => .ok none
  | slow :: l => do
    ensure (decide (s = slow.e.seqNum))
    let d := slow.e.prePrepareDigest.calcCombination slow.c.certificateView slow.e.seqNum
    ensure (decide (0 < slow.c.certificateSig.length))
    let valid ← verify s d slow.c.certificateSig
    if valid then return some slow else selectSlow verify s l

/-- The loop that collects the votes of the replicas; `counters` is `0` where the map of the
source has no entry. -/
def selectFast (quorum : ℕ) (s : ℤ) (minRelevantFastView : ℤ) :
    List ElementsIterator → (Digest → ℕ) → Exec (Option Digest)
  | [], _ => .ok none
  | it :: its, counters => do
    let elem ← currentAtLeast s it
    if elem.seqNum = s ∧ minRelevantFastView ≤ elem.originView then
      let d := elem.prePrepareDigest
      if counters d = 0 then
        selectFast quorum s minRelevantFastView its (Function.update counters d 1)
      else if counters d + 1 = quorum then return some d
      else
        selectFast quorum s minRelevantFastView its
          (Function.update counters d (counters d + 1))
    else selectFast quorum s minRelevantFastView its counters

/-- Removal of position `idx`: the last iterator moves there. -/
def swapRemove (idx : ℕ) (its : List ElementsIterator) : List ElementsIterator :=
  match its.getLast? with
  | some last => (its.set idx last).dropLast
  | none => its

/-- The loop that advances the iterators, with `n` positions left from `idx` on. -/
def advanceIterators (s upperBound : ℤ) :
    ℕ → ℕ → List ElementsIterator → Exec (List ElementsIterator)
  | 0, _, its => .ok its
  | n + 1, idx, its =>
    match its[idx]? with
    | none => .error .index
    | some [] => .error .assertion
    | some (elem :: rest) =>
      if s < elem.seqNum then advanceIterators s upperBound n (idx + 1) its
      else do
        ensure (decide (elem.seqNum = s))
        match rest with
        | [] => advanceIterators s upperBound n idx (swapRemove idx its)
        | next :: _ =>
          if upperBound < next.seqNum then
            advanceIterators s upperBound n idx (swapRemove idx its)
          else advanceIterators s upperBound n (idx + 1) (its.set idx rest)

namespace ViewChangeSafetyLogic

variable (logic : ViewChangeSafetyLogic) (verify : SlowPathVerify)

/-- `(uint16_t)(F + C + 1)`. -/
def fastQuorum : ℕ := (logic.F.toNat + logic.C.toNat + 1) % 2 ^ 16

/-- The loop of `calcLBStableForView` over the messages; `v` is the view of the first one. -/
def collectStableNumbers (incInVC : ℕ) : ℤ → List ViewChangeMsg → List ℤ → Exec (List ℤ)
  | _, [], stableNumbers => .ok stableNumbers
  | v, vc :: msgs, stableNumbers => do
    let v := if stableNumbers.isEmpty then vc.newView else v
    ensure (decide (v = vc.newView))
    if stableNumbers.length < incInVC then
      collectStableNumbers incInVC v msgs (stableNumbers ++ [vc.lastStable])
    else .error .index

/-- `calcLBStableForView`: the `F + 1`-th largest of the stable points. -/
def calcLBStableForView (msgs : List (Option ViewChangeMsg)) : Exec ℤ := do
  let incInVC := (2 * logic.F.toNat + 2 * logic.C.toNat + 1) % 2 ^ 16
  let stableNumbers ← collectStableNumbers incInVC 0 (msgs.filterMap id) []
  ensure (decide (stableNumbers.length = incInVC))
  match (stableNumbers.mergeSort fun x y => decide (y ≤ x))[logic.F.toNat]? with
  | some lowerBoundOfLastStable => return lowerBoundOfLastStable
  | none => .error .index

/-- What one call of `computeRestrictionsForSeqNum` decides before it advances the iterators. -/
def selectRestriction (s : ℤ) (its : List ElementsIterator) : Exec (Option Digest) := do
  let slowPathCertificates ← collectSlow s its []
  let sorted ← checkSlowPathCertificates slowPathCertificates
  ensure sorted
  let selectedSlow ← selectSlow verify s slowPathCertificates
  let minRelevantFastView := match selectedSlow with
    | some slow => slow.c.certificateView + 1
    | none => 0
  let selectedFast ← selectFast logic.fastQuorum s minRelevantFastView its fun _ => 0
  return match selectedFast with
    | some d => some d
    | none => selectedSlow.map fun slow => slow.e.prePrepareDigest

/-- `computeRestrictionsForSeqNum`: the return value, the digest and the iterators it leaves. -/
def computeRestrictionsForSeqNum (s : ℤ) (its : List ElementsIterator)
    (upperBound : ℤ) : Exec (Bool × Digest × List ElementsIterator) := do
  ensure (!its.isEmpty)
  ensure (decide (s ≤ upperBound))
  let selected ← logic.selectRestriction verify s its
  let its ← advanceIterators s upperBound its.length 0 its
  return match selected with
    | some d => (true, d, its)
    | none => (false, 0, its)

/-- The initial iterators of `computeRestrictions`. -/
def createIterators (lowerBound : ℤ) (msgs : List (Option ViewChangeMsg)) : List ElementsIterator :=
  (msgs.filterMap id).filterMap fun vc =>
    if vc.elements.isEmpty then none
    else
      let it := ElementsIterator.goToAtLeast lowerBound vc.elements
      if it.isEmpty then none else some it

/-- The loops over the window, from index `j` of the array on, with `n` sequence numbers left. -/
def restrictionLoop (lowerBound upperBound : ℤ) :
    ℕ → ℕ → List ElementsIterator → List Restriction → ℤ →
      Exec (List Restriction × ℤ)
  | 0, _, _, arr, lastRestrictionNum => .ok (arr, lastRestrictionNum)
  | n + 1, j, its, arr, lastRestrictionNum =>
    if its.isEmpty then
      restrictionLoop lowerBound upperBound n (j + 1) its
        (arr.modify j fun r => { r with isNull := true }) lastRestrictionNum
    else do
      let currSeqNum := lowerBound + j
      let (hasRest, digest, its) ←
        logic.computeRestrictionsForSeqNum verify currSeqNum its upperBound
      if hasRest && digest != logic.nullDigest then
        restrictionLoop lowerBound upperBound n (j + 1) its
          (arr.set j { isNull := false, digest }) currSeqNum
      else
        restrictionLoop lowerBound upperBound n (j + 1) its
          (arr.set j { isNull := true, digest }) lastRestrictionNum

/-- What `computeRestrictions` writes to its output parameters. -/
structure Restrictions where
  minRestrictedSeqNum : ℤ
  maxRestrictedSeqNum : ℤ
  safetyRestrictions : List Restriction
  deriving DecidableEq, Repr

/-- `computeRestrictions`; `arr` is the content of the output array before the call. -/
def computeRestrictions (msgs : List (Option ViewChangeMsg)) (inLBStableForView : ℤ)
    (arr : List Restriction) : Exec Restrictions := do
  let lowerBound := inLBStableForView + 1
  let upperBound := inLBStableForView + kWorkWindowSize
  let its := createIterators lowerBound msgs
  let (arr, lastRestrictionNum) ←
    logic.restrictionLoop verify lowerBound upperBound kWorkWindowSize 0 its arr 0
  if its.isEmpty then return ⟨0, 0, arr⟩
  else if 0 < lastRestrictionNum ∧ lastRestrictionNum ≤ upperBound - checkpointWindowSize then
    return ⟨lowerBound, upperBound - checkpointWindowSize, arr⟩
  else return ⟨lowerBound, upperBound, arr⟩

end ViewChangeSafetyLogic

end ConcordBft
