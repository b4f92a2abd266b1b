import Mathlib.Algebra.Ring.Int.Defs
import Mathlib.Algebra.Ring.Nat
import Mathlib.Tactic.Common

/-!
# Primitive types and digests

The identities of replicas, the window constants, numbers in memory, and the digest with the
operation that mixes two numbers into it. Sequence numbers and view numbers (`SeqNum`, `ViewNum`:
`int64_t` in the source) are integers. A digest is the 256-bit number whose most significant byte is the
first byte in memory, so that `memcmp` on digests is the order of the numbers.
-/

namespace ConcordBft

/-- Identities of replicas and of all other principals. -/
abbrev ReplicaId := UInt16

def kWorkWindowSize : ℕ := 300

def checkpointWindowSize : ℕ := 150

/-- What `validate` asks about the replicas. -/
structure ReplicasInfo where
  myId : ReplicaId
  numberOfReplicas : ℕ
  selfEpochNumber : UInt64

def ReplicasInfo.isIdOfReplica (info : ReplicasInfo) (id : ReplicaId) : Bool :=
  decide (id.toNat < info.numberOfReplicas)

/-- The number that bytes stand for on a little-endian machine. -/
def leNat : List UInt8 → ℕ
  | [] => 0
  | b :: bytes => b.toNat + 256 * leNat bytes

/-- A digest of `DIGEST_SIZE = 32` bytes. -/
abbrev Digest := BitVec 256

namespace Digest

/-- The bytes of a 64-bit word in reverse order. -/
def byteSwap (w : BitVec 64) : BitVec 64 :=
  w.extractLsb' 0 8 ++ w.extractLsb' 8 8 ++ w.extractLsb' 16 8 ++ w.extractLsb' 24 8 ++
    w.extractLsb' 32 8 ++ w.extractLsb' 40 8 ++ w.extractLsb' 48 8 ++ w.extractLsb' 56 8

/-- `((uint64_t*)d)[i]` on a little-endian machine. -/
def word (d : Digest) (i : ℕ) : BitVec 64 := byteSwap (d.extractLsb' (192 - 64 * i) 64)

/-- The assignment `((uint64_t*)d)[i] = w`. -/
def setWord (d : Digest) (i : ℕ) (w : BitVec 64) : Digest :=
  (d &&& ~~~((BitVec.allOnes 64).setWidth 256 <<< (192 - 64 * i))) |||
    ((byteSwap w).setWidth 256 <<< (192 - 64 * i))

/-- `DigestHolder::calcCombination`: xor two numbers into the words that the digest selects. -/
def calcCombination (d : Digest) (inDataA inDataB : ℤ) : Digest :=
  let locationA := (d.word 0).toNat % 2
  let locationB := (d.word 0 >>> 8).toNat % 2
  let d := d.setWord locationA (d.word locationA ^^^ BitVec.ofInt 64 inDataA)
  d.setWord locationB (d.word locationB ^^^ BitVec.ofInt 64 inDataB)

/-- The bytes of a digest in the order of memory. -/
def bytes (d : Digest) : List UInt8 :=
  (List.range 32).map fun i => UInt8.ofBitVec (d.extractLsb' (248 - 8 * i) 8)

end Digest

end ConcordBft
