import ConcordBft.Lib.Run

/-!
# Bringing the blockchain back in step with the metadata

A replica executes batches of requests; each of them adds blocks to the blockchain, and the end of
the batch is recorded in the metadata. A crash in between leaves blocks the metadata does not know
of. When the replica starts, `ReplicaStateSyncImp::execute` deletes them.

With the v4 blockchain a block is deleted by a batch that reverts its updates. The batches are
prepared before the blockchain is opened, against the snapshot taken when the last sequence number
began, and are kept in a recovery database of their own until the deletion is finished.
-/

namespace ConcordBft.Kvbc

open Verif Exec

variable {U : Type}

/-! ## The storage -/

/-- A block: the sequence number of the batch that added it, and its updates. -/
structure Block (U : Type) where
  seqNum : ℕ
  updates : U
  deriving DecidableEq, Repr

/-- The reachable blocks, the newest first, above the pruned ones. -/
structure Chain (U : Type) where
  pruned : ℕ
  blocks : List (Block U)
  pruned_eq : blocks = [] → pruned = 0

namespace Chain

variable (c : Chain U)

/-- `getLastBlockId`; 0 for an empty chain. -/
def lastId : ℕ := c.pruned + c.blocks.length

/-- `getGenesisBlockId`; 0 for an empty chain. -/
def genesisId : ℕ := if c.blocks.isEmpty then 0 else c.pruned + 1

/-- `getLastBlockSequenceNum` -/
def lastSeqNum : ℕ := (c.blocks.head?.map Block.seqNum).getD 0

def add (b : Block U) : Chain U := ⟨c.pruned, b :: c.blocks, nofun⟩

/-- `deleteBlocksUntil`: the oldest blocks go, but never all. -/
def prune (k : ℕ) : Chain U :=
  if h : k < c.blocks.length then
    ⟨c.pruned + k, c.blocks.take (c.blocks.length - k), fun hnil => by
      have hlen := congrArg List.length hnil
      rw [List.length_take, List.length_nil] at hlen
      omega⟩
  else c

end Chain

structure Metadata where
  lastBlockId : Option ℕ
  lastExecutedSeqNum : ℕ
  deriving DecidableEq, Repr

/-- What survives a crash. -/
structure Storage (U : Type) where
  chain : Chain U
  metadata : Metadata
  /-- the stable sequence number stored with the last snapshot -/
  snapshot : Option ℕ
  /-- the recovery database: for the id of a block, the block whose updates the batch reverts -/
  recovery : ℕ → Option (Block U)
  /-- not in the code: the batches written, each with the block that was at its place -/
  reverted : List (Block U × Block U)

structure Config where
  /-- the v4 blockchain, not the categorized one -/
  v4 : Bool
  maxNumOfRequestsInBatch : ℕ
  deriving DecidableEq, Repr

/-! ## Deleting blocks -/

variable (cfg : Config) (s : Storage U)

def deleteLastReachableBlock : Exec (Storage U) :=
  match s.chain.blocks with
  -- "Blockchain empty", "Cannot delete only block as a last reachable one"
  | [] => .error .exception
  | [_] => .error .exception
  | b :: b' :: rest =>
    let chain : Chain U := ⟨s.chain.pruned, b' :: rest, nofun⟩
    if cfg.v4 then
      match s.recovery s.chain.lastId with
      | none => .error .assertion
      | some r => .ok { s with chain := chain, reverted := (r, b) :: s.reverted }
    else .ok { s with chain := chain }

/-- `onFinishDeleteLastReachable`: the recovery database is removed. -/
def onFinishDeleteLastReachable : Storage U :=
  if cfg.v4 then { s with recovery := fun _ => none } else s

/-- The loop of `storeLastReachableRevertBatch` from a block down, not over the genesis block. -/
def revertBatches (stable : ℕ) : List (Block U) → ℕ → (ℕ → Option (Block U)) →
    ℕ → Option (Block U)
  | b :: b' :: rest, id, recovery =>
    if b.seqNum > stable then
      revertBatches stable (b' :: rest) (id - 1)
        -- A batch that is there already is kept.
        (if (recovery id).isSome then recovery else Function.update recovery id (some b))
    else recovery
  | _, _, recovery => recovery

def storeLastReachableRevertBatch : Storage U :=
  match s.snapshot with
  | none => s
  | some stable =>
    { s with recovery := revertBatches stable s.chain.blocks s.chain.lastId s.recovery }

/-! ## The synchronisation -/

/-- The loop of `executeBasedOnBftSeqNum`; it returns from inside when the state is in sync. -/
def bftSeqNumLoop (cfg : Config) (lastExecutedSeqNum maxNumOfBlocksToDelete : ℕ) :
    ℕ → ℕ → Storage U → Exec (Storage U)
  | 0, _, _ => .error .unfinished
  | fuel + 1, removedBlocksNum, s =>
    if s.chain.lastId ≠ 0 ∧ s.chain.genesisId ≤ s.chain.lastId then
      if s.chain.lastSeqNum ≤ lastExecutedSeqNum then .ok s
      else if removedBlocksNum ≥ maxNumOfBlocksToDelete then .error .exception
      else do
        let s ← deleteLastReachableBlock cfg s
        bftSeqNumLoop cfg lastExecutedSeqNum maxNumOfBlocksToDelete fuel (removedBlocksNum + 1) s
    else .ok (onFinishDeleteLastReachable cfg s)

def executeBasedOnBftSeqNum (lastExecutedSeqNum maxNumOfBlocksToDelete : ℕ) : Exec (Storage U) :=
  if lastExecutedSeqNum = 0 then .ok s
  else bftSeqNumLoop cfg lastExecutedSeqNum maxNumOfBlocksToDelete (s.chain.blocks.length + 1) 0 s

/-- The loop of `executeBasedOnBlockId`; the limit is looked at after a block is deleted. -/
def blockIdLoop (cfg : Config) (lastMtdBlockId maxNumOfBlocksToDelete : ℕ) :
    ℕ → ℕ → Storage U → Exec (Storage U)
  | 0, _, _ => .error .unfinished
  | fuel + 1, deletedBlocks, s =>
    if s.chain.lastId > lastMtdBlockId ∧ s.chain.genesisId ≤ s.chain.lastId then do
      let s ← deleteLastReachableBlock cfg s
      if deletedBlocks + 1 = maxNumOfBlocksToDelete then .error .exception
      else blockIdLoop cfg lastMtdBlockId maxNumOfBlocksToDelete fuel (deletedBlocks + 1) s
    else .ok (onFinishDeleteLastReachable cfg s)

def executeBasedOnBlockId (lastMtdBlockId : ℕ) (maxNumOfBlocksToDelete : ℕ) : Exec (Storage U) :=
  if maxNumOfBlocksToDelete = 0 then .ok s
  else blockIdLoop cfg lastMtdBlockId maxNumOfBlocksToDelete (s.chain.blocks.length + 1) 0 s

def persistLastBlockId : Storage U :=
  { s with metadata := { s.metadata with lastBlockId := some s.chain.lastId } }

def execute (lastExecutedSeqNum maxNumOfBlocksToDelete : ℕ) : Exec (Storage U) :=
  match s.metadata.lastBlockId with
  | none => do
    let s ← executeBasedOnBftSeqNum cfg s lastExecutedSeqNum maxNumOfBlocksToDelete
    .ok (persistLastBlockId s)
  | some lastMtdBlockId => executeBasedOnBlockId cfg s lastMtdBlockId maxNumOfBlocksToDelete

/-- The start of a replica: the recovery data are prepared, then `createReplicaAndSyncState` runs
the synchronisation. -/
def start : Exec (Storage U) :=
  let s := if cfg.v4 then storeLastReachableRevertBatch s else s
  execute cfg s s.metadata.lastExecutedSeqNum cfg.maxNumOfRequestsInBatch

/-! ## A running replica -/

structure Replica (U : Type) where
  storage : Storage U
  up : Bool
  lastBlockSn : Option ℕ
  /-- the sequence number that is executed, and how many blocks it has added -/
  executing : Option (ℕ × ℕ)

/-- `onNewBFTSequenceNumber`: the stable sequence number stored when a new one begins. -/
def onNewBFTSequenceNumber (lastBlockSn snapshot : Option ℕ) (seqNum : ℕ) : Option ℕ :=
  match lastBlockSn with
  | some sn => if sn < seqNum then some sn else snapshot
  | none => if snapshot.isSome then snapshot else some 0

def Replica.add (cfg : Config) (r : Replica U) (seqNum k : ℕ) (updates : U) : Replica U :=
  { r with
    storage := { r.storage with
      chain := r.storage.chain.add ⟨seqNum, updates⟩
      snapshot :=
        if cfg.v4 then onNewBFTSequenceNumber r.lastBlockSn r.storage.snapshot seqNum
        else r.storage.snapshot }
    -- A smaller number than the last one is not recorded.
    lastBlockSn := some (max (r.lastBlockSn.getD 0) seqNum)
    executing := some (seqNum, k + 1) }

inductive Op (U : Type)
  | begin (seqNum : ℕ)
  | add (updates : U)
  /-- the batch ends: the block id and the sequence number are written in one transaction -/
  | finish
  | prune (k : ℕ)
  /-- the replica stops, wherever it is, and starts again -/
  | restart

def step (r : Replica U) : Op U → Exec (Replica U)
  | .begin seqNum =>
    .ok (if r.up ∧ r.executing = none ∧ r.storage.metadata.lastExecutedSeqNum < seqNum then
      { r with executing := some (seqNum, 0) } else r)
  | .add updates =>
    .ok (match r.executing with
      | some (seqNum, k) =>
        if k < cfg.maxNumOfRequestsInBatch then r.add cfg seqNum k updates else r
      | none => r)
  | .finish =>
    .ok (match r.executing with
      | some (seqNum, _) =>
        { r with
          storage := { r.storage with metadata := ⟨some r.storage.chain.lastId, seqNum⟩ }
          executing := none }
      | none => r)
  | .prune k =>
    .ok (if r.up then
      { r with storage := { r.storage with chain := r.storage.chain.prune k } } else r)
  | .restart => do
    let storage ← start cfg r.storage
    .ok ⟨storage, true, none, none⟩

end ConcordBft.Kvbc
