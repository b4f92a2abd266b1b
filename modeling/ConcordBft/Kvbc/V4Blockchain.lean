import ConcordBft.Lib.BigEndian
import ConcordBft.Lib.Run
import Mathlib.Order.Nat

/-!
# The v4 blockchain

The blocks from the genesis block to the last reachable one are stored under their numbers, each
with the digest of the block before it. That digest is computed in the background when a block is
added, and taken by the next one (`future_digest_`). Blocks received by state transfer wait in a
chain of their own until they are linked, one after another, with the pruning their updates ask for.
-/

namespace ConcordBft.Kvbc.V4

open Verif Exec Except Function Nat

inductive CategoryType
  | block_merkle
  | immutable
  | versioned_kv
  deriving DecidableEq

inductive ColumnFamily
  | latest_keys
  | immutable_keys
  deriving DecidableEq

/-- `getColumnFamilyFromCategory` -/
def CategoryType.columnFamily : CategoryType → ColumnFamily
  | .immutable => .immutable_keys
  | _ => .latest_keys

/-- `BlockMerkleInput`, `ImmutableInput` or `VersionedInput`. Only the last has stale-on-update
flags of its own, and immutable keys are not deleted. -/
structure CategoryInput where
  type : CategoryType
  kv : String → Option (List UInt8 × Bool)
  deletes : List String

def kConcordInternalCategoryId : String := "concord_internal"

def genesis_block_key : String := "2"

/-- The updates of a block. The internal category is read as a `VersionedInput` everywhere. -/
structure Updates where
  kv : String → Option CategoryInput
  categories : List String
  mem_categories : ∀ category, category ∈ categories ↔ (kv category).isSome
  internal : ∀ input ∈ kv kConcordInternalCategoryId, input.type = .versioned_kv

structure Block (D : Type) where
  updates : Updates
  parentDigest : D

/-- The value of a key in its column family, with its postfix. -/
structure Entry where
  data : List UInt8
  staleOnUpdate : Bool
  version : ℕ

abbrev Keys := ColumnFamily → String → String → Option Entry

structure Config (D : Type) where
  calculateDigest : ℕ → Block D → D
  emptyDigest : D
  /-- The categories with a prefix, in the process after so many restarts. -/
  registered : ℕ → String → Bool

structure Blockchain (D : Type) where
  blocks : ℕ → Option (Block D)
  genesisBlockId : ℕ
  lastReachable : ℕ
  futureDigest : Option D
  /-- The updates of the blocks of the state-transfer chain. -/
  stChain : ℕ → Option Updates
  keys : Keys
  restarts : ℕ
  /-- Not in the code: this process has deleted a last block, or failed to store a new one. -/
  stale : Bool

variable {D : Type} (cfg : Config D)

/-! ## Adding blocks -/

/-- What `handleCategoryUpdates` puts for a key. -/
def CategoryInput.entry (input : CategoryInput) (value : List UInt8 × Bool) (version : ℕ) : Entry :=
  match input.type with
  | .block_merkle => ⟨value.1, false, version⟩
  | .versioned_kv => ⟨value.1, value.2, version⟩
  | .immutable => ⟨[], true, version⟩

def addBlockKeys (updates : Updates) (blockId : ℕ) (keys : Keys) : Keys := fun cf category key =>
  match updates.kv category with
  | none => keys cf category key
  | some input =>
    if cf ≠ input.type.columnFamily then keys cf category key
    -- the deletes follow the puts in the write batch
    else if cf = .latest_keys ∧ key ∈ input.deletes then none
    else ((input.kv key).map (input.entry · blockId)).or (keys cf category key)

def addGenesisBlockKey (updates : Updates) (genesis : ℕ) : Updates :=
  let input := (updates.kv kConcordInternalCategoryId).getD ⟨.versioned_kv, fun _ => none, []⟩
  { kv := update updates.kv kConcordInternalCategoryId (some ⟨.versioned_kv,
      update input.kv genesis_block_key (some (bigEndian 8 (.ofNat _ genesis), true)),
      input.deletes⟩)
    categories := kConcordInternalCategoryId :: updates.categories
    mem_categories := fun category => by
      rw [List.mem_cons, updates.mem_categories, update_apply]
      split_ifs with h <;> simp [h]
    internal := by simp }

variable (s : Blockchain D)

def calculateBlockDigest (id : ℕ) : Exec D :=
  if id < 1 then .ok cfg.emptyDigest
  else match s.blocks id with
    | some block => .ok (cfg.calculateDigest id block)
    | none => .error .assertion

variable (updates : Updates)

/-- `categoryPrefix`, which `addBlockKeys` calls for every category, does not throw. -/
def Registered : Bool := updates.categories.all (cfg.registered s.restarts)

/-- The batch of a new block, with `setBlockId`. -/
def Blockchain.append (digest : D) : Blockchain D :=
  let id := s.lastReachable + 1
  { s with
    blocks := update s.blocks id (some ⟨updates, digest⟩)
    futureDigest := some (cfg.calculateDigest id ⟨updates, digest⟩)
    keys := addBlockKeys updates id s.keys
    lastReachable := id
    genesisBlockId := if s.genesisBlockId = 0 then id else s.genesisBlockId }

/-- The digest of the new block is on its way when its keys cannot be added. -/
def Blockchain.fail (digest : D) : Blockchain D :=
  { s with
    futureDigest := some (cfg.calculateDigest (s.lastReachable + 1) ⟨updates, digest⟩)
    stale := true }

/-- Whether the block is stored, or an exception thrown. -/
def addBlock : Exec (Blockchain D × Bool) := do
  let digest ← match s.futureDigest with
    | some digest => pure digest
    | none => calculateBlockDigest cfg s s.lastReachable
  return if Registered cfg s updates then (s.append cfg updates digest, true)
    else (s.fail cfg updates digest, false)

def add : Exec (Blockchain D × Bool) :=
  addBlock cfg s (addGenesisBlockKey updates s.genesisBlockId)

/-! ## Deleting blocks -/

def deleteGenesisBlock : Exec (Blockchain D) := do
  ensure (0 < s.genesisBlockId)
  ensure (s.genesisBlockId < s.lastReachable)
  return { s with
    blocks := update s.blocks s.genesisBlockId none, genesisBlockId := s.genesisBlockId + 1 }

/-- `leaked` are the blocks that `deleteFilesInRange` leaves in place. -/
def deleteBlocksUntil (until_ : ℕ) (leaked : ℕ → Bool) : Exec (Blockchain D) := do
  ensure (0 < s.genesisBlockId)
  ensure (s.genesisBlockId < until_)
  if s.lastReachable = s.genesisBlockId then return s
  let lastDeleted := min (s.lastReachable - 1) (until_ - 1)
  return { s with
    blocks := fun b => if 1 ≤ b ∧ b ≤ lastDeleted ∧ ¬ leaked b then none else s.blocks b
    genesisBlockId := lastDeleted + 1 }

/-- `batch` is what the recovery database has for the block: how the keys are reverted. -/
def deleteLastReachableBlock (batch : Option (Keys → Keys)) : Exec (Blockchain D) :=
  if s.lastReachable = 0 ∨ s.lastReachable = s.genesisBlockId then .error .exception
  else match batch with
    | none => .error .assertion
    | some revert => .ok { s with
        blocks := update s.blocks s.lastReachable none
        keys := revert s.keys
        lastReachable := s.lastReachable - 1
        stale := true }

/-- The loop of `trimBlocksFromSnapshot`. -/
def trimBlocks (recovery : ℕ → Option (Keys → Keys)) :
    ℕ → Blockchain D → Exec (Blockchain D)
  | 0, s => .ok s
  | rounds + 1, s => do
    trimBlocks recovery rounds (← deleteLastReachableBlock s (recovery s.lastReachable))

def trimBlocksFromSnapshot (blockId : ℕ) (recovery : ℕ → Option (Keys → Keys)) :
    Exec (Blockchain D) := do
  ensure (blockId ≠ 0)
  ensure (blockId ≤ s.lastReachable)
  if blockId ≤ s.genesisBlockId then .error .exception
  else trimBlocks recovery (s.lastReachable - blockId) s

/-! ## Linking the state-transfer chain -/

/-- The genesis block id a block carries; 0 if it has none. -/
def blockGenesisId : ℕ :=
  match (updates.kv kConcordInternalCategoryId).bind (·.kv genesis_block_key) with
  | some (data, _) => (gather 8 fun i => data.getD (7 - i) 0).toNat
  | none => 0

/-- The loop of `pruneOnSTLink`, for at most so many rounds. -/
def deleteGenesisBlocks (target : ℕ) : ℕ → Blockchain D → Exec (Blockchain D)
  | 0, s => .ok s
  | rounds + 1, s =>
    if 1 ≤ s.genesisBlockId ∧ s.genesisBlockId < s.lastReachable ∧ s.genesisBlockId < target then
      deleteGenesisBlock s >>= deleteGenesisBlocks target rounds
    else .ok s

-- every round moves the genesis block, which stays at or below the last one
def pruneOnSTLink : Exec (Blockchain D) :=
  deleteGenesisBlocks (blockGenesisId updates) (s.lastReachable - s.genesisBlockId) s

def writeSTLinkTransaction (blockId : ℕ) (updates : Updates) : Exec (Blockchain D × Bool) := do
  let (s, stored) ← addBlock cfg s updates
  if stored then
    return (← pruneOnSTLink { s with stChain := update s.stChain blockId none } updates, true)
  else return (s, false)

/-- The loop of `linkSTChain` and `linkUntilBlockId`, with the id of the last block added unless an
exception ends it. -/
def linkBlocks : ℕ → ℕ → Blockchain D → ℕ → Exec (Blockchain D × Option ℕ)
  | 0, _, s, lastAdded => .ok (s, some lastAdded)
  | rounds + 1, i, s, lastAdded =>
    match s.stChain i with
    | none => .ok (s, some lastAdded)
    | some updates => do
      let (s, stored) ← writeSTLinkTransaction cfg s i updates
      if stored then linkBlocks rounds (i + 1) s i else return (s, none)

/-- The result is an unsigned number of 64 bits. -/
def linkUntilBlockId (until_ : ℕ) : Exec (Blockchain D × Option ℕ) := do
  let first := s.lastReachable + 1
  ensure (first ≤ until_)
  let (s, lastAdded) ← linkBlocks cfg (until_ + 1 - first) first s 0
  return (s, lastAdded.map fun lastAdded => (lastAdded + 2 ^ 64 - first + 1) % 2 ^ 64)

/-- `lastBlockId` is the last block of the state-transfer chain. -/
def linkSTChain (lastBlockId : ℕ) : Exec (Blockchain D) := do
  let first := s.lastReachable + 1
  return (← linkBlocks cfg (lastBlockId + 1 - first) first s 0).1

/-- A block that is there already is not replaced. -/
def addBlockToSTChain (blockId : ℕ) (updates : Updates) : Exec (Blockchain D) :=
  if blockId ≤ s.lastReachable then .error .exception
  else .ok { s with stChain := update s.stChain blockId ((s.stChain blockId).or (some updates)) }

inductive Op
  | add (updates : Updates)
  | addBlockToSTChain (blockId : ℕ) (updates : Updates)
  | linkSTChain (lastBlockId : ℕ)
  | linkUntilBlockId (until_ : ℕ)
  | deleteGenesisBlock
  | deleteBlocksUntil (until_ : ℕ) (leaked : ℕ → Bool)
  | deleteLastReachableBlock (batch : Option (Keys → Keys))
  | trimBlocksFromSnapshot (blockId : ℕ) (recovery : ℕ → Option (Keys → Keys))
  | restart (lastBlockId : ℕ)

/-- An exception leaves what was done before it. -/
def step : Op → Exec (Blockchain D)
  | .add updates => do return (← add cfg s updates).1
  | .addBlockToSTChain blockId updates => addBlockToSTChain s blockId updates
  | .linkSTChain lastBlockId => linkSTChain cfg s lastBlockId
  | .linkUntilBlockId until_ => do return (← linkUntilBlockId cfg s until_).1
  | .deleteGenesisBlock => deleteGenesisBlock s
  | .deleteBlocksUntil until_ leaked => deleteBlocksUntil s until_ leaked
  | .deleteLastReachableBlock batch => deleteLastReachableBlock s batch
  | .trimBlocksFromSnapshot blockId recovery => trimBlocksFromSnapshot s blockId recovery
  -- the ids are read back from the storage: the highest block and the stored genesis id
  | .restart lastBlockId => linkSTChain cfg
      { s with futureDigest := none, restarts := s.restarts + 1, stale := false } lastBlockId

def empty : Blockchain D :=
  ⟨fun _ => none, 0, 0, none, fun _ => none, fun _ _ _ => none, 0, false⟩

/-! ## The stored blocks -/

variable {cfg s} {s' : Blockchain D} {updates : Updates} {ok_ : Prop}

structure WellFormed (s : Blockchain D) : Prop where
  genesis_le : s.genesisBlockId ≤ s.lastReachable
  genesis_pos : 0 < s.lastReachable → 0 < s.genesisBlockId
  present : ∀ b, s.genesisBlockId ≤ b → b ≤ s.lastReachable → 0 < b →
    ∃ block, s.blocks b = some block
  above : ∀ b, s.lastReachable < b → s.blocks b = none
  zero : s.blocks 0 = none

/-- Every block above the genesis block has the digest of the block stored before it. -/
def HashChain (cfg : Config D) (s : Blockchain D) : Prop :=
  ∀ b, s.genesisBlockId < b → b ≤ s.lastReachable → ∃ block previous, s.blocks b = some block ∧
    s.blocks (b - 1) = some previous ∧ block.parentDigest = cfg.calculateDigest (b - 1) previous

def DigestOfLast (cfg : Config D) (s : Blockchain D) (digest : D) : Prop :=
  ∀ block, 0 < s.lastReachable → s.blocks s.lastReachable = some block →
    digest = cfg.calculateDigest s.lastReachable block

/-- What every step keeps; the digests only as long as the condition on the run holds. -/
structure Stored (cfg : Config D) (ok_ : Prop) (s : Blockchain D) : Prop
    extends WellFormed s where
  chain : ok_ → HashChain cfg s
  future : ok_ → s.stale = false → ∀ d ∈ s.futureDigest, DigestOfLast cfg s d

/-- Only the oldest blocks may be gone. -/
structure Pruned (s s' : Blockchain D) : Prop where
  last : s'.lastReachable = s.lastReachable
  le : s.genesisBlockId ≤ s'.genesisBlockId
  le_last : s'.genesisBlockId ≤ s.lastReachable
  blocks : ∀ b, s'.genesisBlockId ≤ b → s'.blocks b = s.blocks b
  zero : s.blocks 0 = none → s'.blocks 0 = none
  future : s'.futureDigest = s.futureDigest
  restarts : s'.restarts = s.restarts
  stale : s'.stale = s.stale

theorem Pruned.refl (h : s.genesisBlockId ≤ s.lastReachable) (st : ℕ → Option Updates) :
    Pruned s { s with stChain := st } :=
  ⟨rfl, le_rfl, h, fun _ _ => rfl, id, rfl, rfl, rfl⟩

theorem Pruned.stored (h : Pruned s s') (hs : Stored cfg ok_ s) : Stored cfg ok_ s' where
  genesis_le := h.last ▸ h.le_last
  genesis_pos hpos := (hs.genesis_pos (h.last ▸ hpos)).trans_le h.le
  present b hb hlast hpos := by
    rw [h.blocks b hb]
    exact hs.present b (h.le.trans hb) (h.last ▸ hlast) hpos
  above b hb := by
    rw [h.last] at hb
    rw [h.blocks b (h.le_last.trans hb.le)]
    exact hs.above b hb
  zero := h.zero hs.zero
  chain hok b hb hlast := by
    rw [h.blocks b hb.le, h.blocks (b - 1) (by omega)]
    exact hs.chain hok b (h.le.trans_lt hb) (h.last ▸ hlast)
  future hok hsh d hd := by
    have hold := hs.future hok (h.stale ▸ hsh) d (h.future ▸ hd)
    rwa [DigestOfLast, h.last, h.blocks _ h.le_last]

theorem deleteGenesisBlock_pruned (h : deleteGenesisBlock s = .ok s') :
    Pruned s s' ∧ s'.stChain = s.stChain ∧ s'.genesisBlockId = s.genesisBlockId + 1 := by
  obtain ⟨-, h⟩ := ensure_bind_eq_ok.mp h
  obtain ⟨hlt, h⟩ := ensure_bind_eq_ok.mp h
  obtain rfl := ok.inj h
  refine ⟨⟨rfl, le_succ _, of_decide_eq_true hlt, fun b hb => ?_, fun hzero => ?_, rfl, rfl, rfl⟩,
    rfl, rfl⟩
  · exact update_of_ne (ne_of_gt hb) _ _
  · simp [update_apply, hzero]

theorem deleteBlocksUntil_pruned {until_ : ℕ} {leaked : ℕ → Bool}
    (h : deleteBlocksUntil s until_ leaked = .ok s') (hs : WellFormed s) : Pruned s s' := by
  obtain ⟨hpos, h⟩ := ensure_bind_eq_ok.mp h
  obtain ⟨huntil, h⟩ := ensure_bind_eq_ok.mp h
  have hle := hs.genesis_le
  split at h
  · exact ok.inj h ▸ .refl hle _
  · obtain rfl := ok.inj h
    simp only [decide_eq_true_eq] at hpos huntil
    refine ⟨rfl, ?_, ?_, fun b hb => if_neg fun h => ?_, by simp, rfl, rfl, rfl⟩ <;> grind

theorem deleteGenesisBlocks_pruned (target rounds : ℕ) (hs : s.genesisBlockId ≤ s.lastReachable) :
    ∃ s', deleteGenesisBlocks target rounds s = .ok s' ∧ Pruned s s' ∧ s'.stChain = s.stChain ∧
      s'.genesisBlockId ≤ max s.genesisBlockId target := by
  induction rounds generalizing s with
  | zero => exact ⟨s, rfl, .refl hs _, rfl, le_max_left ..⟩
  | succ rounds ih =>
    rw [deleteGenesisBlocks]
    split
    · rename_i hcond
      obtain ⟨s₁, hs₁⟩ : ∃ s₁, deleteGenesisBlock s = .ok s₁ := by
        simp [deleteGenesisBlock, Nat.pos_of_ne_zero (Nat.ne_of_gt hcond.1), hcond.2.1]
      obtain ⟨hp, hst, hnext⟩ := deleteGenesisBlock_pruned hs₁
      obtain ⟨s', hs', hp', hst', hle⟩ := ih (hp.last ▸ hp.le_last)
      rw [hs₁, ok_bind]
      refine ⟨s', hs', ⟨hp'.last.trans hp.last, hp.le.trans hp'.le, hp.last ▸ hp'.le_last,
        fun b hb => ?_, hp'.zero ∘ hp.zero, hp'.future.trans hp.future,
        hp'.restarts.trans hp.restarts, hp'.stale.trans hp.stale⟩, hst'.trans hst, by omega⟩
      rw [hp'.blocks b hb, hp.blocks b (hp'.le.trans hb)]
    · exact ⟨s, rfl, .refl hs _, rfl, le_max_left ..⟩

variable (cfg) in
theorem addBlock_eq (hs : WellFormed s) (updates : Updates) :
    ∃ digest, addBlock cfg s updates = .ok (if Registered cfg s updates then
        (s.append cfg updates digest, true) else (s.fail cfg updates digest, false)) ∧
      ((∀ d ∈ s.futureDigest, DigestOfLast cfg s d) → DigestOfLast cfg s digest) := by
  rcases hfuture : s.futureDigest with _ | d
  · rcases Nat.eq_zero_or_pos s.lastReachable with hlast | hlast
    · refine ⟨cfg.emptyDigest, ?_, fun _ block hpos => by omega⟩
      simp [addBlock, hfuture, calculateBlockDigest, hlast]
    · obtain ⟨block, hblock⟩ := hs.present _ hs.genesis_le le_rfl hlast
      refine ⟨cfg.calculateDigest s.lastReachable block, ?_, ?_⟩
      · simp [addBlock, hfuture, calculateBlockDigest, hblock, ne_of_gt hlast]
      · intro _ block' _ hblock'
        rw [Option.some.inj (hblock.symm.trans hblock')]
  · exact ⟨d, by simp [addBlock, hfuture], fun h => h d rfl⟩

theorem Stored.fail (hs : Stored cfg ok_ s) (digest : D) :
    Stored cfg ok_ (s.fail cfg updates digest) :=
  ⟨⟨hs.genesis_le, hs.genesis_pos, hs.present, hs.above, hs.zero⟩, hs.chain, fun _ h => nomatch h⟩

theorem Stored.append (hs : Stored cfg ok_ s) {digest : D}
    (hd : ok_ → DigestOfLast cfg s digest) : Stored cfg ok_ (s.append cfg updates digest) := by
  have hle := hs.genesis_le
  have hold : ∀ b ≤ s.lastReachable, (s.append cfg updates digest).blocks b = s.blocks b :=
    fun b hb => update_of_ne (by omega) _ _
  have hnew : (s.append cfg updates digest).blocks (s.lastReachable + 1) =
      some ⟨updates, digest⟩ := update_self ..
  have hgenesis : (s.append cfg updates digest).genesisBlockId =
      if s.genesisBlockId = 0 then s.lastReachable + 1 else s.genesisBlockId := rfl
  have hlast : (s.append cfg updates digest).lastReachable = s.lastReachable + 1 := rfl
  refine ⟨⟨by grind, by grind, fun b hb hble hpos => ?_, fun b hb => ?_,
    (hold 0 (zero_le _)).trans hs.zero⟩, fun hok b hb hble => ?_,
    fun hok _ d hd' block _ hblock => ?_⟩
  · rcases lt_or_ge s.lastReachable b with hgt | hb'
    · exact ⟨_, (show b = s.lastReachable + 1 by omega) ▸ hnew⟩
    · rw [hold b hb']
      exact hs.present b (by grind) hb' hpos
  · exact (update_of_ne (by grind) _ _).trans (hs.above b (by grind))
  · rcases lt_or_ge s.lastReachable b with hgt | hb'
    · obtain rfl : b = s.lastReachable + 1 := by omega
      have hpos : 0 < s.lastReachable := by grind
      obtain ⟨previous, hprevious⟩ := hs.present _ hle le_rfl hpos
      exact ⟨_, previous, hnew, (hold _ le_rfl).trans hprevious, hd hok previous hpos hprevious⟩
    · rw [hold b hb', hold (b - 1) (by omega)]
      exact hs.chain hok b (by grind) hb'
  · obtain rfl := Option.some.inj (hnew.symm.trans hblock)
    exact (Option.some.inj hd').symm

theorem Stored.deleteLast (hs : Stored cfg ok_ s) {batch : Option (Keys → Keys)}
    (h : deleteLastReachableBlock s batch = .ok s') : Stored cfg ok_ s' := by
  unfold deleteLastReachableBlock at h
  split at h
  · cases h
  rename_i hlast
  rcases batch with _ | revert
  · cases h
  obtain rfl := ok.inj h
  have hle := hs.genesis_le
  have hpos := hs.genesis_pos
  have hold : ∀ b < s.lastReachable, update s.blocks s.lastReachable none b = s.blocks b :=
    fun b hb => update_of_ne hb.ne _ _
  refine ⟨⟨by grind, by grind, fun b hb hble hpos => ?_, fun b hb => ?_,
    (hold 0 (by grind)).trans hs.zero⟩, fun hok b hb hble => ?_, fun _ hsh => by cases hsh⟩
  · exact (hs.present b hb (by grind) hpos).imp fun _ => (hold b (by grind)).trans
  · grind [hs.above b]
  · dsimp only at hb hble ⊢
    rw [hold b (by omega), hold (b - 1) (by omega)]
    exact hs.chain hok b hb (by omega)

theorem trimBlocks_stored {recovery : ℕ → Option (Keys → Keys)} {rounds : ℕ}
    (hs : Stored cfg ok_ s) (h : trimBlocks recovery rounds s = .ok s') : Stored cfg ok_ s' := by
  induction rounds generalizing s with
  | zero => exact ok.inj h ▸ hs
  | succ rounds ih =>
    obtain ⟨s₁, hs₁, h⟩ := bind_eq_ok.mp h
    exact ih (hs.deleteLast hs₁) h

variable (cfg) in
/-- Linking a block appends it and then prunes. -/
theorem writeSTLinkTransaction_eq (hs : WellFormed s) (i : ℕ) (updates : Updates) :
    ∃ digest s', writeSTLinkTransaction cfg s i updates = .ok (if Registered cfg s updates then
        (s', true) else (s.fail cfg updates digest, false)) ∧
      ((∀ d ∈ s.futureDigest, DigestOfLast cfg s d) → DigestOfLast cfg s digest) ∧
      Pruned (s.append cfg updates digest) s' ∧ s'.stChain = update s.stChain i none ∧
      s'.genesisBlockId ≤ max (max s.genesisBlockId 1) (blockGenesisId updates) := by
  obtain ⟨digest, hadd, hdigest⟩ := addBlock_eq cfg hs updates
  have hle := hs.genesis_le
  have hpos := hs.genesis_pos
  obtain ⟨s', hs', hp, hst, hgenesis⟩ := deleteGenesisBlocks_pruned
    (s := { s.append cfg updates digest with stChain := update s.stChain i none })
    (blockGenesisId updates) _ (by grind [Blockchain.append])
  refine ⟨digest, s', ?_, hdigest, ⟨hp.last, hp.le, hp.le_last, hp.blocks, hp.zero, hp.future,
    hp.restarts, hp.stale⟩, hst, by grind [Blockchain.append]⟩
  rw [writeSTLinkTransaction, hadd, ok_bind]
  by_cases hreg : Registered cfg s updates
  · simp only [hreg, if_true]
    exact congrArg (· >>= _) hs'
  · simp [hreg]

theorem linkBlocks_stored (hs : Stored cfg ok_ s) (hok : ok_ → s.stale = false)
    {rounds i lastAdded : ℕ} {r : Blockchain D × Option ℕ}
    (h : linkBlocks cfg rounds i s lastAdded = .ok r) : Stored cfg ok_ r.1 := by
  induction rounds generalizing s i lastAdded with
  | zero => exact ok.inj h ▸ hs
  | succ rounds ih =>
    rw [linkBlocks] at h
    split at h
    · exact ok.inj h ▸ hs
    · rename_i updates _
      obtain ⟨digest, s₁, hs₁, hdigest, hp, -⟩ :=
        writeSTLinkTransaction_eq cfg hs.toWellFormed i updates
      rw [hs₁, ok_bind] at h
      by_cases hreg : Registered cfg s updates
      · simp only [hreg, if_true] at h
        refine ih (hp.stored (hs.append fun h => hdigest (hs.future h (hok h)))) ?_ h
        exact fun h => hp.stale.trans (hok h)
      · simp only [hreg] at h
        exact ok.inj h ▸ hs.fail digest

/-- A process that has deleted a last block, or failed to store one, neither adds nor links one. -/
def Safe (s : Blockchain D) : Op → Prop
  | .add _ | .linkSTChain _ | .linkUntilBlockId _ => s.stale = false
  | _ => True

theorem Stored.step {op : Op} (hs : Stored cfg ok_ s) (hsafe : ok_ → Safe s op)
    (h : step cfg s op = .ok s') : Stored cfg ok_ s' := by
  cases op with
  | add updates =>
    obtain ⟨r, hr, h⟩ := bind_eq_ok.mp h
    obtain ⟨digest, hadd, hdigest⟩ := addBlock_eq cfg hs.toWellFormed _
    obtain rfl := ok.inj (hadd.symm.trans hr)
    obtain rfl := ok.inj h
    split_ifs
    · exact hs.append fun h => hdigest (hs.future h (hsafe h))
    · exact hs.fail digest
  | addBlockToSTChain blockId updates =>
    simp only [V4.step, V4.addBlockToSTChain] at h
    split at h
    · cases h
    · exact ok.inj h ▸ (Pruned.refl hs.genesis_le _).stored hs
  | linkSTChain lastBlockId =>
    obtain ⟨r, hr, h⟩ := bind_eq_ok.mp h
    exact ok.inj h ▸ linkBlocks_stored hs hsafe hr
  | linkUntilBlockId until_ =>
    obtain ⟨r, hr, h⟩ := bind_eq_ok.mp h
    obtain ⟨-, hr⟩ := ensure_bind_eq_ok.mp hr
    obtain ⟨r', hr', hr⟩ := bind_eq_ok.mp hr
    obtain rfl := ok.inj hr
    obtain rfl := ok.inj h
    exact (linkBlocks_stored hs hsafe hr' : Stored cfg ok_ r'.1)
  | deleteGenesisBlock => exact (deleteGenesisBlock_pruned h).1.stored hs
  | deleteBlocksUntil until_ leaked =>
    exact (deleteBlocksUntil_pruned h hs.toWellFormed).stored hs
  | deleteLastReachableBlock batch => exact hs.deleteLast h
  | trimBlocksFromSnapshot blockId recovery =>
    obtain ⟨-, h⟩ := ensure_bind_eq_ok.mp h
    obtain ⟨-, h⟩ := ensure_bind_eq_ok.mp h
    split at h
    · cases h
    · exact trimBlocks_stored hs h
  | restart lastBlockId =>
    obtain ⟨r, hr, h⟩ := bind_eq_ok.mp h
    have hs' : Stored cfg ok_
        { s with futureDigest := none, restarts := s.restarts + 1, stale := false } :=
      ⟨⟨hs.genesis_le, hs.genesis_pos, hs.present, hs.above, hs.zero⟩, hs.chain, nofun⟩
    exact ok.inj h ▸ linkBlocks_stored hs' (fun _ => rfl) hr

theorem stored_of_run {ops : List Op} (hops : ok_ → EveryStep (step cfg) empty Safe ops)
    (h : run (step cfg) empty ops = .ok s) : Stored cfg ok_ s := by
  have hcond : EveryStep (step cfg) empty (fun s op => ok_ → Safe s op) ops :=
    fun before op hpre s' hs' hok => hops hok before op hpre s' hs'
  refine run_preserves ?_ (fun _ _ _ => Stored.step) hcond h
  refine ⟨⟨le_rfl, id, fun b _ hb hpos => ?_, fun _ _ => rfl, rfl⟩, fun _ b hpos hb => ?_, nofun⟩
  all_goals exact absurd hb hpos.not_ge

theorem wellFormed_of_run {ops : List Op} (h : run (step cfg) empty ops = .ok s) : WellFormed s :=
  (stored_of_run (fun h : False => h.elim) h).toWellFormed

theorem hashChain_of_safe {ops : List Op} (hops : EveryStep (step cfg) empty Safe ops)
    (h : run (step cfg) empty ops = .ok s) : HashChain cfg s :=
  (stored_of_run (fun _ : True => hops) h).chain trivial

def numbered : Config ℕ := ⟨fun id _ => id, 0, fun _ _ => true⟩

def noUpdates : Updates := ⟨fun _ => none, [], by simp, nofun⟩

def restarted : List Op := [.add noUpdates, .add noUpdates, .deleteLastReachableBlock (some id),
  .restart 0, .add noUpdates]

theorem hashChain_restart : ∃ s, run (step numbered) empty restarted = .ok s ∧
    HashChain numbered s := by
  have hrun : run (step numbered) empty restarted = .ok _ := rfl
  refine ⟨_, hrun, hashChain_of_safe ?_ hrun⟩
  iterate 5 refine .cons (by trivial) fun s hs => ?_; obtain rfl := ok.inj hs
  exact everyStep_nil _ _ _

theorem not_hashChain : ∃ s, run (step numbered) empty [.add noUpdates, .add noUpdates,
    .deleteLastReachableBlock (some id), .add noUpdates] = .ok s ∧ ¬ HashChain numbered s := by
  refine ⟨_, rfl, fun h => ?_⟩
  obtain ⟨block, previous, hblock, -, hdigest⟩ := h 2 (by decide) (by decide)
  obtain rfl := Option.some.inj hblock
  exact absurd hdigest (by decide : (2 : ℕ) ≠ 1)

/-- **No gaps.** From the genesis block on, a run leaves exactly the blocks up to the last reachable
one. -/
theorem isSome_blocks_iff {ops : List Op} (h : run (step cfg) empty ops = .ok s) {b : ℕ}
    (hb : s.genesisBlockId ≤ b) : (s.blocks b).isSome ↔ 0 < b ∧ b ≤ s.lastReachable := by
  have hs := wellFormed_of_run h
  constructor
  · intro hsome
    refine ⟨Nat.pos_of_ne_zero ?_, le_of_not_gt fun hlt => ?_⟩
    · rintro rfl
      rw [hs.zero] at hsome
      cases hsome
    · rw [hs.above b hlt] at hsome
      cases hsome
  · rintro ⟨hpos, hle⟩
    obtain ⟨block, hblock⟩ := hs.present b hb hle hpos
    rw [hblock]
    rfl

theorem isSome_blocks_restarted : ∃ s, run (step numbered) empty restarted = .ok s ∧
    ((s.blocks 2).isSome ↔ 0 < 2 ∧ 2 ≤ s.lastReachable) := by
  have hrun : run (step numbered) empty restarted = .ok _ := rfl
  exact ⟨_, hrun, isSome_blocks_iff hrun (by decide)⟩

/-! ## What linking moves -/

/-- The blocks of the state-transfer chain after the last reachable one, up to the first that is
absent or to `until_`, are moved; `m` is the last of them. Pruned are the blocks below a genesis block
id that one of them carries. -/
structure Moves (s s' : Blockchain D) (until_ m : ℕ) : Prop where
  le : s.lastReachable ≤ m
  le_until : m ≤ until_
  present : ∀ i, s.lastReachable < i → i ≤ m → (s.stChain i).isSome
  maximal : m < until_ → s.stChain (m + 1) = none
  last : s'.lastReachable = m
  genesis : s.genesisBlockId ≤ s'.genesisBlockId
  genesis_le : s'.genesisBlockId ≤ m
  asked : s'.genesisBlockId ≤ max s.genesisBlockId 1 ∨ ∃ i, s.lastReachable < i ∧ i ≤ m ∧
    ∃ updates ∈ s.stChain i, s'.genesisBlockId ≤ blockGenesisId updates
  stChain : ∀ i, s'.stChain i = if s.lastReachable < i ∧ i ≤ m then none else s.stChain i
  moved : ∀ i, s'.genesisBlockId ≤ i → s.lastReachable < i → i ≤ m →
    (s'.blocks i).map Block.updates = s.stChain i
  kept : ∀ i, s'.genesisBlockId ≤ i → i ≤ s.lastReachable → s'.blocks i = s.blocks i

theorem Moves.refl {rounds : ℕ} (hs : WellFormed s)
    (h : rounds = 0 ∨ s.stChain (s.lastReachable + 1) = none) :
    Moves s s (s.lastReachable + rounds) s.lastReachable :=
  ⟨le_rfl, by omega, by grind, by grind, rfl, le_rfl, hs.genesis_le, .inl (le_max_left ..),
    by grind, by grind, fun _ _ _ => rfl⟩

end ConcordBft.Kvbc.V4
