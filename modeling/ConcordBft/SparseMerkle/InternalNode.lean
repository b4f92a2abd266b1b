import ConcordBft.SparseMerkle.Hash

/-!
# Batched internal nodes

The model of `BatchedInternalNode`: a binary tree of height four, stored level by level in an
array of 31 optional children. Every access to the array is checked; every `std::get` and every
assertion of the source may stop the process. The functions that change the node return the
changed node.
-/

namespace ConcordBft.SparseMerkle

open Verif

/-- The hash functions: of a buffer, and of two children. -/
structure Hasher where
  hash : List UInt8 → Hash
  parent : Hash → Hash → Hash

structure LeafKey where
  hash : Hash
  version : Version
  deriving DecidableEq

/-- A leaf: the hash of its value and its key. -/
structure LeafChild where
  hash : Hash
  key : LeafKey
  deriving DecidableEq

structure InternalChild where
  hash : Hash
  version : Version
  deriving DecidableEq

inductive Child
  | leaf (c : LeafChild)
  | internal (c : InternalChild)
  deriving DecidableEq

structure BatchedInternalNode where
  children : Fin 31 → Option Child
  deriving DecidableEq

inductive InsertResult
  | insertComplete (staleLeaf : Option LeafKey)
  | createNewBatchedInternalNodes (storedChild : LeafChild)
  | insertIntoExistingNode (nextNodeVersion : Version)

inductive RemoveResult
  | removeComplete (version : Version)
  | notFound
  | removeBatchedInternalNode (promoted : Option LeafChild) (removedVersion : Version)
  | descend (nextNodeVersion : Version)

namespace BatchedInternalNode

def empty : BatchedInternalNode := ⟨fun _ => none⟩

/-! ## Indices -/

variable (index : ℕ)

def leftChildIndex : ℕ := 2 * index + 1

def rightChildIndex : ℕ := 2 * index + 2

/-- The child on the side of a bit. -/
def childIndex (bit : Bool) : ℕ :=
  if bit then rightChildIndex index else leftChildIndex index

def isLeftChild : Bool := index % 2 != 0

/-- `parentIndex` of an index that is not the root. -/
def parentIndex : ℕ := (index - 1) / 2

def height : ℕ :=
  if index = 0 then 4
  else if index < 3 then 3
  else if index < 7 then 2
  else if index < 15 then 1
  else 0

/-- The children of level `0` start in the middle of the array. -/
def nibbleToIndex (nibble : Nibble) : ℕ := 15 + nibble.toNat

/-! ## Reading the node -/

variable (node : BatchedInternalNode) (index : ℕ)

def get : Exec (Option Child) :=
  if h : index < 31 then .ok (node.children ⟨index, h⟩) else .error .index

def set (child : Option Child) : Exec BatchedInternalNode :=
  if h : index < 31 then .ok ⟨Function.update node.children ⟨index, h⟩ child⟩ else .error .index

def isEmpty : Exec Bool := do
  let child ← node.get index
  .ok child.isNone

def isInternal : Exec Bool := do
  let child ← node.get index
  match child with
  | some (.internal _) => .ok true
  | _ => .ok false

/-- `std::get<LeafChild>(children_.at(index).value())`. -/
def getLeaf : Exec LeafChild := do
  let child ← node.get index
  match child with
  | some (.leaf c) => .ok c
  | _ => .error .access

/-- `std::get<InternalChild>(children_.at(index).value())`. -/
def getInternal : Exec InternalChild := do
  let child ← node.get index
  match child with
  | some (.internal c) => .ok c
  | _ => .error .access

/-- The hash of a child, the placeholder if there is none. -/
def childHash : Option Child → Hash
  | none => Hash.placeholder
  | some (.leaf c) => c.hash
  | some (.internal c) => c.hash

def getHash : Exec Hash := do
  let child ← node.get index
  .ok (childHash child)

def peerIndex : Exec (Option ℕ) :=
  if index = 0 then .ok none
  else do
    let peer := if isLeftChild index then index + 1 else index - 1
    let peerIsEmpty ← node.isEmpty peer
    if peerIsEmpty then .ok none else .ok (some peer)

def numChildren : ℕ := (List.finRange 31).countP fun i => (node.children i).isSome

def isLeaf : Option Child → Bool
  | some (.leaf _) => true
  | _ => false

def numLeafChildren : ℕ := (List.finRange 31).countP fun i => isLeaf (node.children i)

def numLevel0Children : ℕ :=
  (List.finRange 31).countP fun i : Fin 31 => decide (15 ≤ (i : ℕ)) && (node.children i).isSome

def safeToRemove : Bool := decide (node.numLeafChildren = 0) && decide (node.numLevel0Children = 0)

/-- The array of the children is not empty. -/
instance children_neZero : NeZero 31 := ⟨by decide⟩

def hash : Hash := childHash (node.children 0)

def version : Exec Version :=
  match node.children 0 with
  | none => .ok 0
  | some (.internal c) => .ok c.version
  | some (.leaf _) => .error .access

/-! ## Hashes -/

variable (hasher : Hasher)

/-- From a child up to the root of the node, the hashes of the parents; a missing parent is
created. -/
def updateHashes (node : BatchedInternalNode) (index : ℕ) (version : Version) :
    Exec BatchedInternalNode :=
  if _h : index = 0 then .error .assertion
  else do
    let left ← node.getHash (if isLeftChild index then index else index - 1)
    let right ← node.getHash (if isLeftChild index then index + 1 else index)
    let parent ← node.get (parentIndex index)
    if isLeaf parent then .error .access
    else do
      let node ← node.set (parentIndex index)
        (some (.internal ⟨hasher.parent left right, version⟩))
      if parentIndex index = 0 then .ok node
      else updateHashes node (parentIndex index) version
termination_by index
decreasing_by
  unfold parentIndex
  omega

/-! ## Insertion -/

/-- The common loop of `insert` and `remove`: the first child on the path of the nibble that is
not internal, or the child at level `0` if all are internal. -/
def findChild (childKey : Nibble) : ℕ → ℕ → Exec (ℕ × Bool)
  | 0, index => .ok (index, true)
  | i + 1, index => do
    let index := childIndex index (childKey.getBit i)
    let internal ← node.isInternal index
    if internal then findChild childKey i index else .ok (index, false)

variable (index : ℕ)

def insertIntoEmptyChild (child : LeafChild) (version : Version) :
    Exec (BatchedInternalNode × InsertResult) := do
  let node ← node.set index (some (.leaf child))
  let node ← node.updateHashes hasher index version
  .ok (node, .insertComplete none)

def overwrite (stored child : LeafChild) : Exec (BatchedInternalNode × InsertResult) :=
  do
  let node ← node.set index (some (.leaf child))
  let node ← node.updateHashes hasher index child.key.version
  .ok (node, .insertComplete (some stored.key))

/-- The loop of `insertInternalChildren`, from the height `i` downwards. -/
def insertInternalChildren (version : Version) (childKey : Nibble) (untilHeight : ℕ) :
    BatchedInternalNode → ℕ → ℕ → Exec (BatchedInternalNode × ℕ)
  | node, 0, index => .ok (node, index)
  | node, i + 1, index =>
    if untilHeight ≤ i then do
      let index := childIndex index (childKey.getBit i)
      let node ← node.set index (some (.internal ⟨Hash.placeholder, version⟩))
      insertInternalChildren version childKey untilHeight node i index
    else .ok (node, index)

def insertTwoLeafChildren (version : Version) (childKey : Nibble)
    (prefixBitsInCommon : ℕ) (child1 child2 : LeafChild) :
    Exec (BatchedInternalNode × InsertResult) := do
  let bit := childKey.getBit (4 - prefixBitsInCommon - 1)
  let node ← node.set (childIndex index bit) (some (.leaf child1))
  let node ← node.set (childIndex index !bit) (some (.leaf child2))
  let node ← node.updateHashes hasher (childIndex index bit) version
  .ok (node, .insertComplete none)

def splitNode (stored child : LeafChild) (depth : ℕ) :
    Exec (BatchedInternalNode × InsertResult) := do
  let version := child.key.version
  let node ← node.set index (some (.internal ⟨Hash.placeholder, version⟩))
  if height index = 0 then .ok (node, .createNewBatchedInternalNodes stored)
  else do
    let prefixBitsInCommon ← stored.key.hash.prefixBitsInCommon child.key.hash depth
    Exec.ensure (decide (0 < prefixBitsInCommon))
    let childKey ← child.key.hash.getNibble depth
    let (node, index) ← insertInternalChildren version childKey
      (if prefixBitsInCommon < 4 then 4 - prefixBitsInCommon else 0) node (height index) index
    if prefixBitsInCommon < 4 then
      node.insertTwoLeafChildren hasher index version childKey prefixBitsInCommon child stored
    else .ok (node, .createNewBatchedInternalNodes stored)

/-- The leaf is inserted into an empty child, overwrites a leaf of the same key, or splits another
leaf. -/
def insert (child : LeafChild) (depth : ℕ) (currentVersion : Version) :
    Exec (BatchedInternalNode × InsertResult) := do
  let childKey ← child.key.hash.getNibble depth
  let (index, internal) ← node.findChild childKey 4 0
  if internal then do
    let next ← node.getInternal index
    .ok (node, .insertIntoExistingNode next.version)
  else do
    let childIsEmpty ← node.isEmpty index
    if childIsEmpty then node.insertIntoEmptyChild hasher index child currentVersion
    else do
      let stored ← node.getLeaf index
      if stored.key.hash = child.key.hash then node.overwrite hasher index stored child
      else node.splitNode hasher index stored child depth

/-! ## Removal -/

/-- The loop of `removeLeafChild`: the leaf `peer`, taken from `index`, is moved up as far as it is
alone. -/
def movePeerUp (peer : LeafChild) (newVersion removedVersion : Version) (depth : ℕ)
    (node : BatchedInternalNode) (index : ℕ) : Exec (BatchedInternalNode × RemoveResult) :=
  if _h : index = 0 then .ok (node, .removeBatchedInternalNode (some peer) removedVersion)
  else do
    let parentPeer ← node.peerIndex (parentIndex index)
    if parentPeer.isSome then do
      let node ← node.set (parentIndex index) (some (.leaf peer))
      let node ← node.updateHashes hasher (parentIndex index) newVersion
      .ok (node, .removeComplete removedVersion)
    else if parentIndex index = 0 ∧ depth = 0 then do
      let node ← node.set index (some (.leaf peer))
      let node ← node.updateHashes hasher index newVersion
      .ok (node, .removeComplete removedVersion)
    else do
      let node ← node.set (parentIndex index) none
      movePeerUp peer newVersion removedVersion depth node (parentIndex index)
termination_by index
decreasing_by
  unfold parentIndex
  omega

def removeLeafChild (newVersion removedVersion : Version) (depth : ℕ) :
    Exec (BatchedInternalNode × RemoveResult) :=
  if index = 0 then .error .assertion
  else do
    let node ← node.set index none
    let peerIndex ← node.peerIndex index
    match peerIndex with
    | none =>
      -- only the root remains
      if node.numChildren = 1 then do
        let node ← node.updateHashes hasher index newVersion
        .ok (node, .removeBatchedInternalNode none removedVersion)
      else .error .assertion
    | some peerIndex => do
      let peerIsInternal ← node.isInternal peerIndex
      if peerIsInternal then do
        let node ← node.updateHashes hasher index newVersion
        .ok (node, .removeComplete removedVersion)
      else do
        let peer ← node.getLeaf peerIndex
        let node ← node.set peerIndex none
        node.movePeerUp hasher peer newVersion removedVersion depth peerIndex

def remove (key : Hash) (depth : ℕ) (newVersion : Version) :
    Exec (BatchedInternalNode × RemoveResult) := do
  let childKey ← key.getNibble depth
  let (index, internal) ← node.findChild childKey 4 0
  if internal then do
    let next ← node.getInternal index
    .ok (node, .descend next.version)
  else do
    let childIsEmpty ← node.isEmpty index
    if childIsEmpty then .ok (node, .notFound)
    else do
      let leaf ← node.getLeaf index
      if leaf.key.hash = key then
        node.removeLeafChild hasher index newVersion leaf.key.version depth
      else .ok (node, .notFound)

/-! ## Links to other nodes -/

def linkChild (childKey : Nibble) (child : InternalChild) : Exec BatchedInternalNode := do
  let node ← node.set (nibbleToIndex childKey) (some (.internal child))
  node.updateHashes hasher (nibbleToIndex childKey) child.version

/-- The loop of `unlinkChild`: what stands at `index` is moved up as far as it is alone; a leaf
that leaves the node is returned. -/
def unlinkLoop (version : Version) (node : BatchedInternalNode) (index : ℕ) :
    Exec (BatchedInternalNode × Option LeafChild) :=
  if _h : index = 0 then do
    let child ← node.get index
    match child with
    | none => if node.numChildren = 0 then .ok (node, none) else .error .assertion
    | some _ => do
      let leaf ← node.getLeaf index
      let node ← node.set index none
      if node.numChildren = 0 then .ok (node, some leaf) else .error .assertion
  else do
    let child ← node.get index
    let peerIndex ← node.peerIndex index
    match peerIndex with
    | some peerIndex => do
      let peerIsInternal ← node.isInternal peerIndex
      if child.isSome || peerIsInternal then do
        let node ← node.updateHashes hasher index version
        .ok (node, none)
      else do
        let peer ← node.get peerIndex
        let node ← node.set (parentIndex index) peer
        let node ← node.set peerIndex none
        unlinkLoop version node (parentIndex index)
    | none => do
      let node ← node.set (parentIndex index) child
      let node ← node.set index none
      unlinkLoop version node (parentIndex index)
termination_by index
decreasing_by
  all_goals
    unfold parentIndex
    omega

def unlinkChild (childKey : Nibble) (version : Version) (promoted : Option LeafChild) :
    Exec (BatchedInternalNode × Option LeafChild) := do
  let index := nibbleToIndex childKey
  let node ← node.set index (promoted.map Child.leaf)
  let peerIndex ← node.peerIndex index
  if peerIndex.isSome && promoted.isSome then do
    let node ← node.updateHashes hasher index version
    .ok (node, none)
  else node.unlinkLoop hasher version index

end BatchedInternalNode

end ConcordBft.SparseMerkle
