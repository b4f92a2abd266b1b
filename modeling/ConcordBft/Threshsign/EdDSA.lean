import ConcordBft.Lib.OrdMap
import ConcordBft.Lib.Run
import ConcordBft.Lib.Unordered
import ConcordBft.Types

/-!
# EdDSA multi-signatures

The model of `SingleEdDSASignature`, `EdDSAMultisigVerifier` and `EdDSASignatureAccumulator`. A
share is the 72 bytes that `reinterpret_cast` reads as a structure: a 64-bit id and 64 bytes of
signature. A combined signature is a sequence of shares. The verification of one signature with
one public key is a parameter: the elements of `verifiers`.
-/

namespace ConcordBft

open Verif Verif.Exec

/-- The bytes of one share, `sizeof(SingleEdDSASignature) = 72`. -/
@[ext] structure SingleEdDSASignature where
  bytes : List UInt8
  size_eq : bytes.length = 72
  deriving DecidableEq

namespace SingleEdDSASignature

/-- The id of the signer, as the share states it. -/
def id (share : SingleEdDSASignature) : ℕ := leNat (share.bytes.take 8)

def signatureBytes (share : SingleEdDSASignature) : List UInt8 := share.bytes.drop 8

theorem length_take_share {buffer : List UInt8} (h : 72 ≤ buffer.length) :
    (buffer.take 72).length = 72 := by
  rw [List.length_take]
  omega

/-- The share at the start of a buffer. -/
def read (buffer : List UInt8) : Exec SingleEdDSASignature :=
  if h : 72 ≤ buffer.length then .ok ⟨buffer.take 72, length_take_share h⟩
  else .error .buffer

end SingleEdDSASignature

structure EdDSAMultisigVerifier where
  /-- The verifiers of single signatures; index `0` is not used. -/
  verifiers : List (List UInt8 → List UInt8 → Bool)
  signersCount : ℕ
  threshold : ℕ
  size_eq : verifiers.length = signersCount + 1

namespace EdDSAMultisigVerifier

variable (v : EdDSAMultisigVerifier)

def verifySingleSignature (msg : List UInt8) (signature : SingleEdDSASignature) : Exec Bool :=
  if signature.id = 0 then .ok false
  else match v.verifiers[signature.id]? with
    | some verifyBuffer => .ok (verifyBuffer msg signature.signatureBytes)
    | none => .error .index

/-- The loop of `verify` over the `n` shares at the start of `sig`. -/
def countValid (msg : List UInt8) : ℕ → List UInt8 → ℕ → Exec ℕ
  | 0, _, validSignatureCount => .ok validSignatureCount
  | n + 1, sig, validSignatureCount => do
    let currentSignature ← SingleEdDSASignature.read sig
    if currentSignature.id = 0 ∨ v.verifiers.length ≤ currentSignature.id then
      countValid msg n (sig.drop 72) validSignatureCount
    else
      let result ← v.verifySingleSignature msg currentSignature
      countValid msg n (sig.drop 72) (validSignatureCount + if result then 1 else 0)

def verify (msg sig : List UInt8) : Exec Bool := do
  ensure (decide (sig.length % 72 = 0))
  let signatureCountInBuffer := sig.length / 72
  if signatureCountInBuffer < v.threshold then return false
  let validSignatureCount ← v.countValid msg signatureCountInBuffer sig 0
  return decide (v.threshold ≤ validSignatureCount)

def requiredLengthForSignedData : ℕ := v.signersCount * 72

def maxShareID : ℕ := v.signersCount + 1

end EdDSAMultisigVerifier

structure EdDSASignatureAccumulator where
  verification : Bool
  expectedMsgDigest : List UInt8
  /-- The map from ids to shares, in the order of insertion. -/
  signatures : List SingleEdDSASignature := []
  /-- The ordered set of the ids of invalid shares. -/
  invalidShares : List ℕ := []

namespace EdDSASignatureAccumulator

variable (v : EdDSAMultisigVerifier) (acc : EdDSASignatureAccumulator)

/-- The share is verified if the accumulator does that, and found invalid. -/
def foundInvalid (share : SingleEdDSASignature) : Exec Bool :=
  if acc.verification then do
    let result ← v.verifySingleSignature acc.expectedMsgDigest share
    return !result
  else return false

def add (sigShareWithId : List UInt8) : Exec EdDSASignatureAccumulator :=
  if h : sigShareWithId.length = 72 then
    let share : SingleEdDSASignature := ⟨sigShareWithId, h⟩
    if share.id = 0 ∨ v.maxShareID < share.id then .ok acc
    else do
      let invalid ← foundInvalid v acc share
      return { acc with
        signatures := Unordered.insert SingleEdDSASignature.id share acc.signatures
        invalidShares := if invalid then
            OrdSet.insert (fun a b => decide (a < b)) share.id acc.invalidShares
          else acc.invalidShares }
  else .error .assertion

def addAll (shares : List (List UInt8)) : Exec EdDSASignatureAccumulator :=
  run (add v) acc shares

/-- `getFullSignedData` into a buffer of `threshSigLen` bytes: the bytes written. -/
def getFullSignedData (order : IterationOrder SingleEdDSASignature)
    (acc : EdDSASignatureAccumulator) (threshSigLen : ℕ) : Exec (List UInt8) := do
  ensure (decide (acc.signatures.length * 72 ≤ threshSigLen))
  return (order.order acc.signatures).flatMap SingleEdDSASignature.bytes

end EdDSASignatureAccumulator

end ConcordBft
