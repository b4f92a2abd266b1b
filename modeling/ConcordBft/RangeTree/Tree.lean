import ConcordBft.RangeTree.Node
import ConcordBft.Lib.Run
import Mathlib.Data.Finmap

/-!
# The range validation tree

`RangeValidationTree` and the functions that add a node on the right and remove one on the left.
A pointer to a node is the node's id, and the nodes are the values of `id_to_node_`; a node that is
read through a pointer but is not in the map faults. The loops that climb to the root take at most
one step for each level, so they get `kMaxLevels + 1` steps.
-/

namespace ConcordBft

open Verif Verif.Exec

structure RangeValidationTree where
  rightmostRvtNode : ℕ → Option ℕ
  leftmostRvtNode : ℕ → Option ℕ
  idToNode : Finmap fun _ : ℕ => RVTNode
  root : Option ℕ
  minRvbIndex : ℕ
  maxRvbIndex : ℕ
  nodeIdsToErase : List ℕ

namespace RangeValidationTree

def empty : RangeValidationTree := ⟨fun _ => none, fun _ => none, ∅, none, 0, 0, []⟩

variable (c : RvtConfig) (t : RangeValidationTree)

def clear (_ : RangeValidationTree) : RangeValidationTree := empty

/-! ## Nodes -/

def deref (id : ℕ) : Exec RVTNode :=
  match t.idToNode.lookup id with
  | some node => .ok node
  | none => .error .access

variable (node : RVTNode)

def write : RangeValidationTree :=
  { t with idToNode := t.idToNode.insert node.id node }

/-- `ConcordAssert(id_to_node_.insert({id, node}).second == true)`. -/
def insertNode : Exec RangeValidationTree := do
  ensure (t.idToNode.lookup node.id).isNone
  return t.write node

def derefRoot : Exec RVTNode :=
  match t.root with
  | some id => t.deref id
  | none => .error .access

/-- `getRVTNodeByType(node, PARENT)`. -/
def parentNode : Exec (Option RVTNode) :=
  if t.root = some node.id then .ok none
  else
    match t.idToNode.lookup node.parentId with
    | some parent => .ok (some parent)
    | none => .error .assertion

def requireParent : Exec RVTNode := do
  match ← t.parentNode node with
  | some parent => return parent
  | none => .error .assertion

/-! ## The open nodes of each level -/

inductive ArrUpdateType
  | addNodeToRight
  | checkRemoveNode

/-- An index of the arrays `leftmost_rvt_node_` and `rightmost_rvt_node_`. -/
def checkLevel (level : ℕ) : Exec Unit :=
  if level < NodeInfo.kMaxLevels then .ok () else .error .index

def openForInsertion (level : ℕ) : Exec (Option RVTNode) := do
  checkLevel level
  match t.rightmostRvtNode level with
  | none => return none
  | some id =>
    let rnode ← t.deref id
    return if rnode.openForInsertion c then some rnode else none

def openForRemoval (level : ℕ) : Exec (Option ℕ) := do
  checkLevel level
  return t.leftmostRvtNode level

def updateOpenRvtNodeArrays (type : ArrUpdateType) (id : ℕ) : Exec RangeValidationTree := do
  let lvl := NodeInfo.level id
  checkLevel lvl
  let leftmost := t.leftmostRvtNode lvl
  let rightmost := t.rightmostRvtNode lvl
  ensure (decide (leftmost = rightmost) || (leftmost.isSome && rightmost.isSome))
  match type with
  | .addNodeToRight =>
    return { t with
      rightmostRvtNode := Function.update t.rightmostRvtNode lvl (some id)
      leftmostRvtNode := Function.update t.leftmostRvtNode lvl (leftmost.or (some id)) }
  | .checkRemoveNode =>
    ensure !(decide (rightmost = some id) && decide (leftmost ≠ some id))
    let leftmost ←
      if leftmost = some id then do
        let nextRvbIndex ← NodeInfo.nextRvbIndex c (NodeInfo.rvbIndex id) lvl
        let next := NodeInfo.id lvl nextRvbIndex
        pure (if (t.idToNode.lookup next).isSome then some next else none)
      else pure leftmost
    return { t with
      leftmostRvtNode := Function.update t.leftmostRvtNode lvl leftmost
      rightmostRvtNode := Function.update t.rightmostRvtNode lvl
        (if rightmost = some id then none else rightmost) }

def setNewRoot (newRoot : Option ℕ) : Exec RangeValidationTree :=
  match newRoot with
  | none => do
    let root ← t.derefRoot
    ensure (decide (NodeInfo.level root.id = 1))
    return t.clear
  | some newRoot => do
    let t ← match t.root with
      | none => pure t
      | some oldRoot => do
        let newRootLevel := NodeInfo.level newRoot
        let oldRootLevel := NodeInfo.level oldRoot
        ensure (decide (newRootLevel ≠ 0))
        ensure (decide (newRootLevel = oldRootLevel + 1 ∨ oldRootLevel = newRootLevel + 1))
        if oldRootLevel < newRootLevel then do
          let old ← t.deref oldRoot
          pure (t.write { old with parentId := newRoot })
        else t.updateOpenRvtNodeArrays c .checkRemoveNode oldRoot
    let t := { t with root := some newRoot }
    let root ← t.deref newRoot
    let t := t.write { root with parentId := 0 }
    t.updateOpenRvtNodeArrays c .addNodeToRight newRoot

/-! ## Values on the way to the root -/

/-- The loop of `addValueToInternalNodes`; returns the tree and the last node. -/
def addValueLoop (value : ℤ) : ℕ → RangeValidationTree → ℕ → Exec (RangeValidationTree × ℕ)
  | 0, _, _ => .error .access
  | fuel + 1, t, current => do
    let node ← t.deref current
    let t := t.write (node.addValue c value)
    if node.parentId ≠ 0 then
      ensure (decide (t.root ≠ some current))
      let parent ← t.requireParent node
      if t.root = some parent.id then return (t, parent.id)
      else addValueLoop value fuel t parent.id
    else
      ensure (decide (t.root = some current))
      return (t, current)

def addValueToInternalNodes (bottomNode : Option ℕ) (value : ℤ) : Exec RangeValidationTree :=
  match bottomNode with
  | none => .ok t
  | some bottom => do
    let (t, current) ← addValueLoop c value (NodeInfo.kMaxLevels + 1) t bottom
    if current ≠ bottom then
      let node ← t.deref current
      return t.write (node.addValue c value)
    else return t

/-! ## Adding a node -/

/-- One step of the first loop of `addInternalNode`, which connects `node` to a node above it;
returns the tree, that node and the value to add further up. -/
def connectToParent (valToAdd : ℤ) : Exec (RangeValidationTree × ℕ × ℤ) := do
  let level := NodeInfo.level node.id
  if node.parentId = 0 then
    match ← t.openForInsertion c (level + 1) with
    | some parent =>
      let t := t.write { node with parentId := parent.id }
      let parent ← parent.pushChildId c node.id
      ensure (decide (parent.childIds.length ≤ c.K))
      return (t.write (parent.addValue c valToAdd), parent.id, valToAdd)
    | none =>
      let parent ← RVTNode.new c level (NodeInfo.rvbIndex node.id)
      let parent ← parent.pushChildId c node.id
      let t ← t.insertNode (parent.addValue c valToAdd)
      let t ← t.updateOpenRvtNodeArrays c .addNodeToRight parent.id
      let t := t.write { node with parentId := parent.id }
      return (t, parent.id, NodeVal.add c valToAdd parent.initialValue)
  else
    let parent ← t.requireParent node
    return (t.write (parent.addValue c valToAdd), parent.id, valToAdd)

/-- The first loop of `addInternalNode`: climbs to the level of the root. -/
def connectLoop : ℕ → RangeValidationTree → ℕ → ℤ → Exec (RangeValidationTree × ℕ)
  | 0, _, _, _ => .error .access
  | fuel + 1, t, current, valToAdd => do
    let root ← t.derefRoot
    if NodeInfo.level current = NodeInfo.level root.id then return (t, current)
    else
      let node ← t.deref current
      let (t, parent, valToAdd) ← t.connectToParent c node valToAdd
      connectLoop fuel t parent valToAdd

/-- The second loop of `addInternalNode`: a new root over the root, and a parent for its new
sibling `current`, until the two share one. -/
def growLoop : ℕ → RangeValidationTree → ℕ → Exec RangeValidationTree
  | 0, _, _ => .error .access
  | fuel + 1, t, current => do
    let root ← t.derefRoot
    let node ← t.deref current
    let rootParent ← NodeInfo.parentRvbIndexFromChild c (NodeInfo.rvbIndex root.id)
      (NodeInfo.level root.id)
    let siblingParent ← NodeInfo.parentRvbIndexFromChild c (NodeInfo.rvbIndex current)
      (NodeInfo.level current)
    let newRoot ← RVTNode.new c (NodeInfo.level root.id) (NodeInfo.rvbIndex root.id)
    let newRoot ← newRoot.pushChildId c root.id
    let newRoot := newRoot.addValue c root.currentValue
    let t ← t.insertNode newRoot
    let t ← t.setNewRoot c (some newRoot.id)
    ensure (decide (newRoot.childIds.length ≤ c.K))
    if rootParent ≠ siblingParent then
      let sib ← RVTNode.new c (NodeInfo.level current) (NodeInfo.rvbIndex current)
      let t ← t.insertNode sib
      let t := t.write { node with parentId := sib.id }
      let sib ← sib.pushChildId c current
      let sib := sib.addValue c node.currentValue
      let t := t.write sib
      let t ← t.updateOpenRvtNodeArrays c .addNodeToRight sib.id
      ensure (decide (sib.childIds.length ≤ c.K))
      growLoop fuel t sib.id
    else
      let t := t.write { node with parentId := newRoot.id }
      let newRoot ← newRoot.pushChildId c current
      let newRoot := newRoot.addValue c node.currentValue
      ensure (decide (newRoot.childIds.length ≤ c.K))
      return t.write newRoot

def addInternalNode (nodeToAdd : RVTNode) : Exec RangeValidationTree := do
  ensure (decide (nodeToAdd.parentId = 0))
  let (t, current) ← connectLoop c (NodeInfo.kMaxLevels + 1) t nodeToAdd.id nodeToAdd.initialValue
  if t.root = some current then return t
  else growLoop c (NodeInfo.kMaxLevels + 1) t current

def addRVBNode (rvbNode : RVBNode) : Exec RangeValidationTree := do
  match ← t.openForInsertion c 1 with
  | none =>
    let parent ← RVTNode.new c (NodeInfo.level rvbNode.id) (NodeInfo.rvbIndex rvbNode.id)
    let parent ← parent.pushChildId c rvbNode.id
    let t ← t.updateOpenRvtNodeArrays c .addNodeToRight parent.id
    let t ← t.insertNode parent
    let t ← if t.root.isNone then t.setNewRoot c (some parent.id) else pure t
    let t ← t.addInternalNode c parent
    t.addValueToInternalNodes c (some parent.id) rvbNode.currentValue
  | some parent =>
    let parent ← parent.pushChildId c rvbNode.id
    ensure (decide (parent.childIds.length ≤ c.K))
    (t.write parent).addValueToInternalNodes c (some parent.id) rvbNode.currentValue

/-! ## Removing a node -/

/-- The part of the first loop of `removeAndUpdateInternalNodes` that updates the parent of a node
without children; `rvtNode` is the node where the loop started. -/
def detachNode (rvtNode : ℕ) (node parent : RVTNode) : Exec RangeValidationTree := do
  let parent ← parent.popChildId node.id
  let t := t.write parent
  if node.id ≠ rvtNode then
    let t := { t with nodeIdsToErase := t.nodeIdsToErase.insert node.id }
    let t ← t.updateOpenRvtNodeArrays c .checkRemoveNode node.id
    t.addValueToInternalNodes c (some parent.id) (NodeVal.setNegative node.initialValue)
  else return t

/-- The first loop of `removeAndUpdateInternalNodes`: trims the tree up to the root. -/
def trimLoop (rvtNode : ℕ) (value : ℤ) : ℕ → RangeValidationTree → ℕ → Exec RangeValidationTree
  | 0, _, _ => .error .access
  | fuel + 1, t, current => do
    if t.root = some current then return t
    else
      let node ← t.deref current
      let parent ← t.requireParent node
      let t ← if node.childIds.isEmpty then t.detachNode c rvtNode node parent else pure t
      let t := t.write (node.subtractValue c value)
      trimLoop rvtNode value fuel t parent.id

/-- The second loop of `removeAndUpdateInternalNodes`: drops a root with a single child. -/
def shrinkLoop : ℕ → RangeValidationTree → Exec RangeValidationTree
  | 0, _ => .error .access
  | fuel + 1, t => do
    let root ← t.derefRoot
    let level := NodeInfo.level root.id
    if root.childIds.length = 1 ∧ 1 < level then
      let t := { t with nodeIdsToErase := t.nodeIdsToErase.insert root.id }
      ensure (decide (t.rightmostRvtNode (level - 1) = t.leftmostRvtNode (level - 1)))
      let t ← t.updateOpenRvtNodeArrays c .checkRemoveNode root.id
      let t ← t.setNewRoot c (t.rightmostRvtNode (level - 1))
      shrinkLoop fuel t
    else return t

def removeAndUpdateInternalNodes (rvtNode : ℕ) (value : ℤ) : Exec RangeValidationTree := do
  let t ← trimLoop c rvtNode value (NodeInfo.kMaxLevels + 1) t rvtNode
  let root ← t.derefRoot
  let t := t.write (root.subtractValue c value)
  if root.childIds.isEmpty then t.setNewRoot c none
  else shrinkLoop c (NodeInfo.kMaxLevels + 1) t

def removeRVBNode (rvbNode : RVBNode) : Exec RangeValidationTree := do
  match ← t.openForRemoval 1 with
  | none => .error .assertion
  | some id =>
    let node ← t.deref id
    let t ←
      if node.childIds.length = 1 then do
        let t ← t.updateOpenRvtNodeArrays c .checkRemoveNode id
        let t := { t with nodeIdsToErase := t.nodeIdsToErase.insert id }
        let parent ← t.parentNode node
        t.addValueToInternalNodes c (parent.map RVTNode.id) (NodeVal.setNegative node.initialValue)
      else pure t
    let node ← node.popChildId rvbNode.id
    (t.write node).removeAndUpdateInternalNodes c id rvbNode.currentValue

/-! ## The interface -/

def isValidRvbId (blockId : ℕ) : Bool :=
  decide (blockId ≠ 0) && decide (c.fetchRangeSize ≠ 0) &&
    decide (blockId % c.fetchRangeSize.toNat = 0)

def rvbIdToIndex (rvbId : ℕ) : Exec ℕ := do
  ensure (isValidRvbId c rvbId)
  return rvbId / c.fetchRangeSize.toNat

def addRightNode (rvbId : ℕ) (data : List UInt8) : Exec RangeValidationTree := do
  let rvbIndex ← rvbIdToIndex c rvbId
  let node ← RVBNode.new c rvbIndex data
  ensure (decide (t.maxRvbIndex = 0) || decide ((t.maxRvbIndex + 1) % 2 ^ 64 = rvbIndex))
  let t ← t.addRVBNode c node
  return { t with
    maxRvbIndex := rvbIndex
    minRvbIndex := if t.minRvbIndex = 0 then rvbIndex else t.minRvbIndex }

def removeLeftNode (rvbId : ℕ) (data : List UInt8) : Exec RangeValidationTree := do
  ensure t.root.isSome
  let rvbIndex ← rvbIdToIndex c rvbId
  let node ← RVBNode.new c rvbIndex data
  ensure (decide (t.minRvbIndex = rvbIndex))
  let t ← t.removeRVBNode c node
  let t := { t with
    idToNode := t.nodeIdsToErase.foldl (fun m id => m.erase id) t.idToNode
    nodeIdsToErase := [] }
  if t.root.isNone then return { t with minRvbIndex := 0, maxRvbIndex := 0 }
  else return { t with minRvbIndex := (t.minRvbIndex + 1) % 2 ^ 64 }

end RangeValidationTree

end ConcordBft
