import ConcordBft.SparseMerkle.InternalNode
import Mathlib.Data.List.AList

/-!
# The sparse Merkle tree

The nodes of the tree are kept in a database under their version and path. The nodes that an
update changes are kept in a cache under their path alone, together with the keys that the update
makes stale. The walker goes down from the root to the node of a key and back up.

`Tree::update` removes the deleted keys from the latest tree and then inserts the updated ones. The
changed nodes are returned as a batch, which is written to the database before the next update.
-/

namespace ConcordBft.SparseMerkle

open Verif

structure InternalNodeKey where
  version : Version
  path : NibblePath
  deriving DecidableEq

def InternalNodeKey.root (version : Version) : InternalNodeKey := ⟨version, []⟩

/-! ## The database -/

/-- The database reader of the tree, with the stored nodes and the version of the latest root. -/
structure Database where
  latestVersion : Version
  leafNodes : AList fun _ : LeafKey => List UInt8
  internalNodes : AList fun _ : InternalNodeKey => BatchedInternalNode

namespace Database

def empty : Database := ⟨0, ∅, ∅⟩

variable (db : Database)

def putLeaf (key : LeafKey) (value : List UInt8) : Database :=
  { db with leafNodes := db.leafNodes.insert key value }

def putInternal (key : InternalNodeKey) (node : BatchedInternalNode) : Database :=
  { db with
    internalNodes := db.internalNodes.insert key node
    latestVersion := if db.latestVersion < key.version then key.version else db.latestVersion }

def getInternal (key : InternalNodeKey) : Exec BatchedInternalNode :=
  match db.internalNodes.lookup key with
  | some node => .ok node
  | none => .error .index

def getLatestRoot : Exec BatchedInternalNode :=
  if db.latestVersion = 0 then .ok .empty else db.getInternal (.root db.latestVersion)

end Database

/-! ## The update cache -/

/-- The state of one update. The database is only read. -/
structure UpdateCache where
  version : Version
  dbReader : Database
  staleInternalKeys : Finset InternalNodeKey
  staleLeafKeys : Finset LeafKey
  originalRoot : BatchedInternalNode
  internalNodes : AList fun _ : NibblePath => BatchedInternalNode

namespace UpdateCache

def new (root : BatchedInternalNode) (dbReader : Database) : Exec UpdateCache := do
  let version ← root.version
  .ok ⟨version + 1, dbReader, ∅, ∅, root, ∅⟩

variable (cache : UpdateCache)

def getRoot : BatchedInternalNode :=
  match cache.internalNodes.lookup [] with
  | some node => node
  | none => cache.originalRoot

/-- The cached node at the path, whatever the version of the key; otherwise the stored one. -/
def getInternalNode (key : InternalNodeKey) : Exec BatchedInternalNode :=
  match cache.internalNodes.lookup key.path with
  | some node => .ok node
  | none => cache.dbReader.getInternal key

def putStaleLeaf (key : Option LeafKey) : UpdateCache :=
  match key with
  | some key => { cache with staleLeafKeys := insert key cache.staleLeafKeys }
  | none => cache

def putStale (key : InternalNodeKey) : UpdateCache :=
  { cache with staleInternalKeys := insert key cache.staleInternalKeys }

def put (path : NibblePath) (node : BatchedInternalNode) : UpdateCache :=
  { cache with internalNodes := cache.internalNodes.insert path node }

def remove (path : NibblePath) : UpdateCache :=
  { cache with internalNodes := cache.internalNodes.erase path }

end UpdateCache

/-! ## Paths -/

/-- A path stays shorter than a hash. -/
def NibblePath.append (path : NibblePath) (nibble : Nibble) : Exec NibblePath :=
  if path.length < Hash.maxNibbles - 1 then .ok (path ++ [nibble]) else .error .assertion

def NibblePath.popBack (path : NibblePath) : Exec (NibblePath × Nibble) :=
  match path.getLast? with
  | some nibble => .ok (path.dropLast, nibble)
  | none => .error .assertion

/-! ## The walker -/

/-- The walker stands at `currentNode`; the nodes above are on the stack. `staleVersion` is the
version of the current node before it was changed. -/
structure Walker where
  staleVersion : Version
  cache : UpdateCache
  stack : List BatchedInternalNode
  currentNode : BatchedInternalNode
  nibblePath : NibblePath

namespace Walker

def new (cache : UpdateCache) : Exec Walker := do
  let staleVersion ← cache.getRoot.version
  .ok ⟨staleVersion, cache, [], cache.getRoot, []⟩

variable (walker : Walker)

def depth : ℕ := walker.nibblePath.length

def version : Version := walker.cache.version

def atRoot : Bool := walker.nibblePath.isEmpty

/-- The path goes on with the next nibble of the key. -/
def appendNibble (key : Hash) : Exec Walker := do
  let nextNibble ← key.getNibble walker.depth
  let nibblePath ← walker.nibblePath.append nextNibble
  .ok { walker with nibblePath }

def pushEmptyNodes (key : Hash) : ℕ → Walker → Exec Walker
  | 0, walker => .ok walker
  | n + 1, walker => do
    let walker ← walker.appendNibble key
    pushEmptyNodes key n { walker with stack := .empty :: walker.stack }

def appendEmptyNodes (key : Hash) (nodesToCreate : ℕ) : Exec Walker := do
  let walker := { walker with stack := walker.currentNode :: walker.stack }
  let walker ← pushEmptyNodes key (nodesToCreate - 1) walker
  let walker ← walker.appendNibble key
  let staleVersion ← BatchedInternalNode.empty.version
  .ok { walker with currentNode := .empty, staleVersion }

def descend (key : Hash) (nextVersion : Version) : Exec Walker := do
  let walker := { walker with stack := walker.currentNode :: walker.stack }
  let walker ← walker.appendNibble key
  let currentNode ← walker.cache.getInternalNode ⟨nextVersion, walker.nibblePath⟩
  let staleVersion ← currentNode.version
  .ok { walker with currentNode, staleVersion }

/-- The initial root is not marked, nor is a node that the update has already changed. -/
def markCurrentNodeStale : Walker :=
  if walker.staleVersion ≠ 0 ∧ walker.staleVersion ≠ walker.version then
    { walker with cache := walker.cache.putStale ⟨walker.staleVersion, walker.nibblePath⟩ }
  else walker

def cacheCurrentNode : Walker :=
  { walker with cache := walker.cache.put walker.nibblePath walker.currentNode }

/-- Up to the parent, with the nibble and the hash of the node that is left. -/
def pop : Exec (Walker × Nibble × Hash) := do
  let hash := walker.currentNode.hash
  let (nibblePath, childKey) ← walker.nibblePath.popBack
  match walker.stack with
  | [] => .error .access
  | currentNode :: stack => do
    let staleVersion ← currentNode.version
    .ok ({ walker with staleVersion, stack, currentNode, nibblePath }, childKey, hash)

def ascend (hasher : Hasher) : Exec Walker := do
  Exec.ensure !walker.stack.isEmpty
  let (walker, childKey, hash) ← walker.markCurrentNodeStale.cacheCurrentNode.pop
  let currentNode ← walker.currentNode.linkChild hasher childKey ⟨hash, walker.version⟩
  .ok { walker with currentNode }

/-- The loop of `ascendToRoot`: one step for each nibble of the path. -/
def ascendLoop (hasher : Hasher) : ℕ → Walker → Exec Walker
  | 0, walker => .ok walker
  | n + 1, walker => do
    let walker ← walker.ascend hasher
    ascendLoop hasher n walker

def ascendToRoot (hasher : Hasher) (key : Option LeafKey) : Exec Walker := do
  let walker := { walker with cache := walker.cache.putStaleLeaf key }
  let walker ← ascendLoop hasher walker.depth walker
  .ok walker.markCurrentNodeStale.cacheCurrentNode

/-- The nibble of the removed node, unless it is the root. -/
def removeCurrentNode : Exec (Walker × Option Nibble) :=
  let walker := walker.markCurrentNodeStale
  let walker := { walker with cache := walker.cache.remove walker.nibblePath }
  if walker.atRoot then .ok (walker, none)
  else do
    let (walker, childKey, _) ← walker.pop
    .ok (walker, some childKey)

def insertEmptyRootAtCurrentVersion : Walker :=
  let root := ⟨Function.update BatchedInternalNode.empty.children 0
    (some (.internal ⟨Hash.placeholder, walker.cache.version⟩))⟩
  { walker with cache := walker.cache.put [] root }

end Walker

namespace Walker

variable (hasher : Hasher)

/-! ## Insertion -/

def insertComplete (walker : Walker) (staleLeaf : Option LeafKey) : Exec Walker :=
  walker.ascendToRoot hasher staleLeaf

/-- New nodes down to where the two keys differ. -/
def handleCollision (walker : Walker) (storedChild newChild : LeafChild) : Exec Walker := do
  let prefixBitsInCommon ←
    newChild.key.hash.prefixBitsInCommon storedChild.key.hash walker.depth
  let walker ← walker.appendEmptyNodes newChild.key.hash (prefixBitsInCommon / 4)
  let (currentNode, _) ←
    walker.currentNode.insert hasher storedChild walker.depth walker.version
  let (currentNode, result) ← currentNode.insert hasher newChild walker.depth walker.version
  match result with
  | .insertComplete staleLeaf => insertComplete hasher { walker with currentNode } staleLeaf
  | _ => .error .access

/-- The loop of `insert`, with `n` nibbles of the key left: none is left exactly when the assertion
on the depth fails. -/
def insertFrom (child : LeafChild) : ℕ → Walker → Exec Walker
  | 0, _ => .error .assertion
  | n + 1, walker => do
    let (currentNode, result) ←
      walker.currentNode.insert hasher child walker.depth walker.version
    let walker := { walker with currentNode }
    match result with
    | .insertComplete staleLeaf => insertComplete hasher walker staleLeaf
    | .createNewBatchedInternalNodes storedChild => handleCollision hasher walker storedChild child
    | .insertIntoExistingNode nextNodeVersion => do
      let walker ← walker.descend child.key.hash nextNodeVersion
      insertFrom child n walker

def insert (walker : Walker) (child : LeafChild) : Exec Walker :=
  insertFrom hasher child (Hash.maxNibbles - walker.depth) walker

/-! ## Removal -/

/-- The loop of `removeBatchedInternalNode`, with `n` nodes above the current one. -/
def unlinkEmptyNodes : ℕ → Walker → Option LeafChild → Exec (Walker × Option LeafChild)
  | 0, walker, promoted => .ok (walker, promoted)
  | n + 1, walker, promoted =>
    if walker.currentNode.safeToRemove then do
      let (walker, childKey) ← walker.removeCurrentNode
      match childKey with
      | none => .error .access
      | some childKey => do
        let (currentNode, promoted) ←
          walker.currentNode.unlinkChild hasher childKey walker.version promoted
        unlinkEmptyNodes n { walker with currentNode } promoted
    else .ok (walker, promoted)

def removeBatchedInternalNode (walker : Walker) (promoted : Option LeafChild) : Exec Walker := do
  let (walker, promotedAfterUnlink) ← unlinkEmptyNodes hasher walker.depth walker promoted
  match promotedAfterUnlink with
  | some child => do
    let (currentNode, result) ←
      walker.currentNode.insert hasher child walker.depth walker.version
    match result with
    | .insertComplete _ => ascendToRoot { walker with currentNode } hasher none
    | _ => .error .assertion
  | none =>
    if walker.atRoot && walker.currentNode.safeToRemove then do
      let (walker, _) ← walker.removeCurrentNode
      .ok walker.insertEmptyRootAtCurrentVersion
    else walker.ascendToRoot hasher none

/-- The loop of `remove`, with `n` nibbles of the key left. -/
def removeFrom (keyHash : Hash) : ℕ → Walker → Exec Walker
  | 0, _ => .error .assertion
  | n + 1, walker => do
    let (currentNode, result) ←
      walker.currentNode.remove hasher keyHash walker.depth walker.version
    let walker := { walker with currentNode }
    match result with
    | .removeComplete version => walker.ascendToRoot hasher (some ⟨keyHash, version⟩)
    | .notFound => .ok walker
    | .removeBatchedInternalNode promoted removedVersion =>
      removeBatchedInternalNode hasher
        { walker with cache := walker.cache.putStaleLeaf (some ⟨keyHash, removedVersion⟩) } promoted
    | .descend nextNodeVersion => do
      let walker ← walker.descend keyHash nextNodeVersion
      removeFrom keyHash n walker

def remove (walker : Walker) (keyHash : Hash) : Exec Walker :=
  removeFrom hasher keyHash (Hash.maxNibbles - walker.depth) walker

end Walker

/-! ## Updates -/

/-- What an update returns to be written to the database. -/
structure UpdateBatch where
  staleSinceVersion : Version
  staleInternalKeys : Finset InternalNodeKey
  staleLeafKeys : Finset LeafKey
  internalNodes : List (InternalNodeKey × BatchedInternalNode)
  leafNodes : List (LeafKey × List UInt8)

/-- The arguments of `Tree::update`, in the order in which they are visited. -/
structure Update where
  updates : List (List UInt8 × List UInt8)
  deletedKeys : List (List UInt8)

variable (hasher : Hasher)

def removeKey (cache : UpdateCache) (key : List UInt8) : Exec UpdateCache := do
  let walker ← Walker.new cache
  let walker ← walker.remove hasher (hasher.hash key)
  .ok walker.cache

def leafOf (version : Version) (keyValue : List UInt8 × List UInt8) : LeafChild :=
  ⟨hasher.hash keyValue.2, hasher.hash keyValue.1, version⟩

def insertKeyValue (cache : UpdateCache) (keyValue : List UInt8 × List UInt8) :
    Exec UpdateCache := do
  let walker ← Walker.new cache
  let walker ← walker.insert hasher (leafOf hasher cache.version keyValue)
  .ok walker.cache

structure Tree where
  dbReader : Database
  root : BatchedInternalNode

namespace Tree

def new (dbReader : Database) : Exec Tree := do
  let root ← dbReader.getLatestRoot
  .ok ⟨dbReader, root⟩

def getRootHash (tree : Tree) : Hash := tree.root.hash

def getVersion (tree : Tree) : Exec Version := tree.root.version

def updateImpl (tree : Tree) (update : Update) (cache : UpdateCache) :
    Exec (Tree × UpdateBatch) := do
  let version := cache.version
  let cache ← update.deletedKeys.foldlM (removeKey hasher) cache
  let cache ← update.updates.foldlM (insertKeyValue hasher) cache
  let batch := {
    staleSinceVersion := version
    staleInternalKeys := cache.staleInternalKeys
    staleLeafKeys := cache.staleLeafKeys
    internalNodes := cache.internalNodes.entries.map fun node => (⟨version, node.1⟩, node.2)
    leafNodes := update.updates.map fun keyValue =>
      ((leafOf hasher version keyValue).key, keyValue.2) }
  .ok ({ tree with root := cache.getRoot }, batch)

def update (tree : Tree) (update : Update) : Exec (Tree × UpdateBatch) := do
  -- `reset`
  let root ← tree.dbReader.getLatestRoot
  let tree := { tree with root }
  let cache ← UpdateCache.new tree.root tree.dbReader
  tree.updateImpl hasher update cache

end Tree

def Database.write (db : Database) (batch : UpdateBatch) : Database :=
  let db := batch.internalNodes.foldl (fun db node => db.putInternal node.1 node.2) db
  batch.leafNodes.foldl (fun db leaf => db.putLeaf leaf.1 leaf.2) db

/-- One update, whose batch is written to the database that the tree reads. -/
def Tree.updateAndWrite (tree : Tree) (update : Update) : Exec (Tree × UpdateBatch) := do
  let (tree, batch) ← tree.update hasher update
  .ok ({ tree with dbReader := tree.dbReader.write batch }, batch)

end ConcordBft.SparseMerkle
