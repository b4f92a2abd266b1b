import ConcordBft.Types
import ConcordBft.Lib.Exec
import Mathlib.Algebra.Order.Group.Int
import Mathlib.Algebra.Order.Group.Unbundled.Abs

/-!
# Nodes of the range validation tree

The values, ids and nodes of `RangeValidationTree`. An RVB (range validation block) has an index,
starting at 1; it is a node of level 0 and is not stored. A node of level `l` stands for `RVT_K ^ l`
consecutive indexes and is named by its level and the first of them, packed in 64 bits.

Unsigned 64 bit arithmetic is arithmetic of `ℕ` modulo `2 ^ 64`. A division by zero traps
(`Fault.access`).
-/

namespace ConcordBft

open Verif Verif.Exec

/-- The constants of a tree, and the digest that node values are computed with. -/
structure RvtConfig where
  rvtK : UInt32
  fetchRangeSize : UInt32
  valueSize : UInt64
  digest : List UInt8 → List UInt8
  two_le_rvtK : 2 ≤ rvtK.toNat

namespace RvtConfig

def K (c : RvtConfig) : ℕ := c.rvtK.toNat

def nodeValueModulo (c : RvtConfig) : ℤ := 2 ^ (c.valueSize.toNat * 8)

end RvtConfig

/-! ## NodeVal -/

namespace NodeVal

variable (c : RvtConfig)

/-- The number that `BN_bin2bn` reads. -/
def bin2bn (bytes : List UInt8) : ℕ := bytes.foldl (fun n b => n * 256 + b.toNat) 0

/-- `NodeVal(const char*, size_t)`. -/
def ofBytes (bytes : List UInt8) : ℤ := (bin2bn bytes : ℤ).tmod c.nodeValueModulo

/-- `operator+=`. The remainder of `BN_mod` has the sign of the dividend. -/
def add (x v : ℤ) : ℤ := (x + v).tmod c.nodeValueModulo

/-- The loop that adds the modulus while the value is negative. -/
def toPositive (x : ℤ) : ℤ := if x < 0 then x % c.nodeValueModulo else x

def sub (x v : ℤ) : ℤ := toPositive c ((c.nodeValueModulo + x - v).tmod c.nodeValueModulo)

/-- `setNegative`: sets the sign. -/
def setNegative (x : ℤ) : ℤ := -|x|

end NodeVal

/-! ## NodeInfo -/

def sub64 (x y : ℕ) : ℕ := (x + 2 ^ 64 - y) % 2 ^ 64

/-- `pow_uint`; the base is never 0. -/
def powUint (base exp : ℕ) : ℕ :=
  if base = 0 then 0
  else if exp = 0 then 1
  else (List.range (exp - 1)).foldl (fun res _ => res * base % 2 ^ 64) base

namespace NodeInfo

def kMaxLevels : ℕ := 255

/-- `NodeInfo::id(level, rvb_index)`: 8 bits of the level over 56 bits of the index. -/
def id (level rvbIndex : ℕ) : ℕ := level % 2 ^ 8 * 2 ^ 56 + rvbIndex % 2 ^ 56

def level (id : ℕ) : ℕ := id / 2 ^ 56 % 2 ^ 8

def rvbIndex (id : ℕ) : ℕ := id % 2 ^ 56

variable (c : RvtConfig)

def parentRvbIndexFromChild (childRvbIndex childLevel : ℕ) : Exec ℕ :=
  let spanParent := powUint c.K (childLevel + 1)
  if spanParent = 0 then .error .access
  else .ok ((sub64 childRvbIndex 1 / spanParent * spanParent + 1) % 2 ^ 64)

def minPossibleSiblingRvbIndex (childRvbIndex childLevel : ℕ) : Exec ℕ :=
  parentRvbIndexFromChild c childRvbIndex childLevel

def maxPossibleSiblingRvbIndex (childRvbIndex childLevel : ℕ) : Exec ℕ := do
  let min ← minPossibleSiblingRvbIndex c childRvbIndex childLevel
  return (min + (c.K - 1) * powUint c.K childLevel) % 2 ^ 64

def nextRvbIndex (rvbIndex level : ℕ) : Exec ℕ := do
  let pow := powUint c.K level
  if pow = 0 then .error .access
  else
    ensure (decide (sub64 rvbIndex 1 % pow = 0))
    return (rvbIndex + pow) % 2 ^ 64

end NodeInfo

/-! ## RVBNode and RVTNode -/

/-- The bytes of a 64 bit number in memory. -/
def le64 (n : ℕ) : List UInt8 := (List.range 8).map fun i => UInt8.ofNat (n / 256 ^ i)

def initialValueZeroData : List UInt8 := List.replicate 32 0

/-- `computeNodeInitialValue` as a `NodeVal`. -/
def computeNodeInitialValue (c : RvtConfig) (id : ℕ) (data : List UInt8) : Exec ℤ := do
  ensure (decide (0 < id))
  return NodeVal.ofBytes c (c.digest (le64 id ++ data))

structure RVBNode where
  id : ℕ
  currentValue : ℤ
  deriving DecidableEq, Repr

def RVBNode.new (c : RvtConfig) (rvbIndex : ℕ) (data : List UInt8) : Exec RVBNode := do
  let id := NodeInfo.id 0 rvbIndex
  let currentValue ← computeNodeInitialValue c id data
  ensure (decide (NodeInfo.level id = 0))
  return ⟨id, currentValue⟩

structure RVTNode where
  id : ℕ
  currentValue : ℤ
  parentId : ℕ
  childIds : List ℕ
  insertionCounter : ℕ
  initialValue : ℤ
  deriving DecidableEq, Repr

namespace RVTNode

def kInsertionCounterNotInitialized : ℕ := 2 ^ 64 - 1

variable (c : RvtConfig) (node : RVTNode)

/-- The constructor `RVTNode(level, rvb_index)`: a node one level above `level`. -/
def new (level rvbIndex : ℕ) : Exec RVTNode := do
  let level := (level + 1) % 2 ^ 8
  let rvbIndex ← NodeInfo.minPossibleSiblingRvbIndex c rvbIndex (level - 1)
  let id := NodeInfo.id level rvbIndex
  let value ← computeNodeInitialValue c id initialValueZeroData
  ensure (decide (1 ≤ level))
  ensure (decide (NodeInfo.level id ≤ NodeInfo.kMaxLevels))
  return ⟨id, value, 0, [], kInsertionCounterNotInitialized, value⟩

def addValue (value : ℤ) : RVTNode :=
  { node with currentValue := NodeVal.add c node.currentValue value }

def subtractValue (value : ℤ) : RVTNode :=
  { node with currentValue := NodeVal.sub c node.currentValue value }

/-- `openForInsertion`: the counter has not reached `RVT_K`. -/
def openForInsertion : Bool := decide (0 < sub64 c.K node.insertionCounter)

/-- The counter of the node when a child is pushed: the first push determines it. -/
def counterForPush (id : ℕ) : Exec ℕ :=
  if node.insertionCounter = kInsertionCounterNotInitialized then do
    let minSib ← NodeInfo.minPossibleSiblingRvbIndex c (NodeInfo.rvbIndex id) (NodeInfo.level id)
    let powChild := powUint c.K (NodeInfo.level id)
    if powChild = 0 then .error .access
    else return sub64 (NodeInfo.rvbIndex id) minSib / powChild
  else return node.insertionCounter

def pushChildId (id : ℕ) : Exec RVTNode := do
  ensure (node.childIds.getLast?.all fun last => decide (last < id))
  let counter ← node.counterForPush c id
  ensure (decide (counter < c.K))
  return { node with childIds := node.childIds ++ [id], insertionCounter := counter + 1 }

def popChildId (id : ℕ) : Exec RVTNode :=
  match node.childIds with
  | [] => .error .assertion
  | front :: rest => do
    ensure (decide (front = id))
    return { node with childIds := rest }

end RVTNode

end ConcordBft
