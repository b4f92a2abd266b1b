import ConcordBft.Kvbc.ReplicaStateSync
import Mathlib.Order.Nat

/-!
# Starting after a crash

A start restores the state (`RestartsWell`) if it throws nothing, deletes exactly the blocks the
metadata does not know of, each by its own batch, and leaves no batch in the recovery database. It
does so where the state is `Recoverable`, along every run with any number of crashes before
(`restartsWell_of_recoverable`). Otherwise the limit is reached when it is the number of blocks to
delete, a chain cannot be deleted from its genesis block on, and a first start leaves the batches it
has prepared.
-/

namespace ConcordBft.Kvbc

open Verif Exec List Nat Chain Option

variable {U : Type} {cfg : Config} {s s' : Storage U}

/-! ## What a start has to do -/

/-- The blocks of numbers that are not executed. -/
def unexecuted (s : Storage U) : ℕ :=
  s.chain.blocks.countP fun b => s.metadata.lastExecutedSeqNum < b.seqNum

/-- The blocks a start has to keep. -/
def kept (s : Storage U) : List (Block U) :=
  match s.metadata.lastBlockId with
  | some m => s.chain.blocks.drop (s.chain.lastId - m)
  | none => s.chain.blocks.filter fun b => b.seqNum ≤ s.metadata.lastExecutedSeqNum

/-- The state is restored: each block that is deleted was reverted by its own batch, no batch is
left, and the metadata agree with the chain. -/
structure Restored (s s' : Storage U) : Prop where
  pruned : s'.chain.pruned = s.chain.pruned
  blocks : s'.chain.blocks = kept s
  recovery : ∀ id, s'.recovery id = none
  reverted : ∃ l, s'.reverted = l ++ s.reverted ∧ ∀ p ∈ l, p.1 = p.2
  snapshot : s'.snapshot = s.snapshot
  metadata : s'.metadata = ⟨some s'.chain.lastId, s.metadata.lastExecutedSeqNum⟩

/-- A start throws nothing and restores the state. -/
def RestartsWell (cfg : Config) (s : Storage U) : Prop :=
  ∃ s', start cfg s = .ok s' ∧ Restored s s'

/-- When it does. With a persisted block id: there is nothing to delete, or fewer blocks than the
limit and not all. On the first start: there is nothing to delete and no batch is prepared, or the
blockchain is the categorized one, a number has been executed, and the blocks to delete are at most
the limit and not all. -/
def Recoverable (cfg : Config) (s : Storage U) : Prop :=
  match s.metadata.lastBlockId with
  | some m => s.chain.lastId ≤ m ∨
      s.chain.lastId - m < cfg.maxNumOfRequestsInBatch ∧ s.chain.genesisId ≤ m
  | none =>
    unexecuted s = 0 ∧ (cfg.v4 → ∀ stable ∈ s.snapshot,
        s.chain.blocks.length ≤ 1 ∨ s.chain.lastSeqNum ≤ stable) ∨
      cfg.v4 = false ∧ s.metadata.lastExecutedSeqNum ≠ 0 ∧
        unexecuted s ≤ cfg.maxNumOfRequestsInBatch ∧ unexecuted s < s.chain.blocks.length

/-! ## Deleting the newest blocks -/

/-- The `d` newest blocks are gone, each reverted by its own batch. -/
structure Shortened (d : ℕ) (s s' : Storage U) : Prop where
  pruned : s'.chain.pruned = s.chain.pruned
  blocks : s'.chain.blocks = s.chain.blocks.drop d
  metadata : s'.metadata = s.metadata
  snapshot : s'.snapshot = s.snapshot
  recovery : s'.recovery = s.recovery
  reverted : ∃ l, s'.reverted = l ++ s.reverted ∧ ∀ p ∈ l, p.1 = p.2

/-- The `d` newest blocks are not all, and each has its own batch. -/
def Deletable (cfg : Config) (d : ℕ) (s : Storage U) : Prop :=
  ∀ i < d, i + 1 < s.chain.blocks.length ∧
    (cfg.v4 → s.recovery (s.chain.lastId - i) = s.chain.blocks[i]?)

theorem shortened_zero : Shortened 0 s s := ⟨rfl, rfl, rfl, rfl, rfl, [], by simp⟩

variable {d : ℕ}

theorem Shortened.trans {s₁ : Storage U} (h₁ : Shortened 1 s s₁) (h₂ : Shortened d s₁ s') :
    Shortened (d + 1) s s' := by
  obtain ⟨l₁, hl₁, heq₁⟩ := h₁.reverted
  obtain ⟨l₂, hl₂, heq₂⟩ := h₂.reverted
  refine ⟨h₂.pruned.trans h₁.pruned, ?_, h₂.metadata.trans h₁.metadata,
    h₂.snapshot.trans h₁.snapshot, h₂.recovery.trans h₁.recovery, l₂ ++ l₁, by simp [*], ?_⟩
  · rw [h₂.blocks, h₁.blocks, drop_drop, Nat.add_comm]
  · exact fun p hp => (mem_append.1 hp).elim (heq₂ p) (heq₁ p)

theorem Deletable.delete (h : Deletable cfg (d + 1) s) :
    ∃ s₁, deleteLastReachableBlock cfg s = .ok s₁ ∧ Shortened 1 s s₁ ∧ Deletable cfg d s₁ ∧
      s₁.chain.lastId + 1 = s.chain.lastId := by
  have hlen := (h 0 (by omega)).1
  rcases hb : s.chain.blocks with _ | ⟨b, _ | ⟨b', rest⟩⟩
  · simp [hb] at hlen
  · simp [hb] at hlen
  have hlast : s.chain.lastId = s.chain.pruned + (rest.length + 2) := by simp [lastId, hb]
  unfold deleteLastReachableBlock
  simp only [hb]
  -- the batch of the block below stands one place deeper in the longer chain
  have hrest : ∀ i < d, i + 1 < (b' :: rest).length ∧ (cfg.v4 →
      s.recovery (s.chain.pruned + (rest.length + 1) - i) = (b' :: rest)[i]?) := by
    intro i hi
    obtain ⟨hi₁, hbatch⟩ := h (i + 1) (by omega)
    rw [hlast, hb] at hbatch
    rw [hb] at hi₁
    exact ⟨by simpa using hi₁, by simpa [Nat.add_sub_add_right, ← Nat.add_assoc] using hbatch⟩
  by_cases hv4 : cfg.v4
  · have hbatch := (h 0 (by omega)).2 hv4
    simp only [Nat.sub_zero, hb, List.getElem?_cons_zero] at hbatch
    simp only [hv4, if_true, hbatch]
    exact ⟨_, rfl, ⟨rfl, by simp [hb], rfl, rfl, rfl, [(b, b)], by simp⟩, hrest, by
      simp [lastId, hb]; omega⟩
  · simp only [hv4]
    exact ⟨_, rfl, ⟨rfl, by simp [hb], rfl, rfl, rfl, [], by simp⟩, hrest, by
      simp [lastId, hb]; omega⟩

theorem Chain.genesisId_le_lastId (c : Chain U) : c.genesisId ≤ c.lastId := by
  unfold genesisId lastId
  split_ifs with h
  · omega
  · have := length_pos_iff.2 (by simpa using h)
    omega

theorem blockIdLoop_eq {m max fuel deleted : ℕ} (h : Deletable cfg d s)
    (hlast : s.chain.lastId = m + d) (hfuel : d < fuel) (hmax : d = 0 ∨ deleted + d < max) :
    ∃ s', Shortened d s s' ∧
      blockIdLoop cfg m max fuel deleted s = .ok (onFinishDeleteLastReachable cfg s') := by
  induction d generalizing s fuel deleted with
  | zero =>
    obtain ⟨fuel, rfl⟩ := Nat.exists_eq_add_one_of_ne_zero (Nat.ne_zero_of_lt hfuel)
    exact ⟨s, shortened_zero, by rw [blockIdLoop, if_neg (by omega)]⟩
  | succ d ih =>
    obtain ⟨fuel, rfl⟩ := Nat.exists_eq_add_one_of_ne_zero (Nat.ne_zero_of_lt hfuel)
    obtain ⟨s₁, hs₁, hshort, hdel, hlast₁⟩ := h.delete
    obtain ⟨s', hs', heq⟩ := @ih s₁ fuel (deleted + 1) hdel (by omega) (by omega) (by omega)
    refine ⟨s', hshort.trans hs', ?_⟩
    rw [blockIdLoop, if_pos ⟨by omega, s.chain.genesisId_le_lastId⟩, hs₁, ok_bind,
      if_neg (by omega), heq]

theorem Chain.cons_of_getElem? {c : Chain U} {b : Block U} (h : c.blocks[d]? = some b) :
    ∃ b₀ rest, c.blocks = b₀ :: rest ∧ c.lastSeqNum = b₀.seqNum ∧ c.lastId ≠ 0 := by
  rcases hb : c.blocks with _ | ⟨b₀, rest⟩
  · simp [hb] at h
  · exact ⟨b₀, rest, rfl, by simp [lastSeqNum, hb], by simp [lastId, hb]⟩

theorem bftSeqNumLoop_eq {e max fuel removed : ℕ} (h : Deletable cfg d s)
    (hnew : ∀ b ∈ s.chain.blocks.take d, e < b.seqNum)
    (hold : ∃ b, s.chain.blocks[d]? = some b ∧ b.seqNum ≤ e) (hfuel : d < fuel)
    (hmax : removed + d ≤ max ∨ d = 0) :
    ∃ s', Shortened d s s' ∧ bftSeqNumLoop cfg e max fuel removed s = .ok s' := by
  induction d generalizing s fuel removed with
  | zero =>
    obtain ⟨fuel, rfl⟩ := Nat.exists_eq_add_one_of_ne_zero (Nat.ne_zero_of_lt hfuel)
    obtain ⟨b, hb, hle⟩ := hold
    obtain ⟨b₀, rest, hcons, hseq, hlast⟩ := cons_of_getElem? hb
    obtain rfl : b₀ = b := by simpa [hcons] using hb
    refine ⟨s, shortened_zero, ?_⟩
    rw [bftSeqNumLoop, if_pos ⟨hlast, s.chain.genesisId_le_lastId⟩, hseq, if_pos hle]
  | succ d ih =>
    obtain ⟨fuel, rfl⟩ := Nat.exists_eq_add_one_of_ne_zero (Nat.ne_zero_of_lt hfuel)
    obtain ⟨b, hb, hle⟩ := hold
    obtain ⟨b₀, rest, hcons, hseq, hlast⟩ := cons_of_getElem? hb
    have hgt := hnew b₀ (by simp [hcons])
    obtain ⟨s₁, hs₁, hshort, hdel, -⟩ := h.delete
    have hrest : s₁.chain.blocks = rest := by rw [hshort.blocks, hcons]; rfl
    obtain ⟨s', hs', heq⟩ := @ih s₁ fuel (removed + 1) hdel
      (fun c hc => hnew c (by rw [hrest] at hc; simp [hcons, hc]))
      ⟨b, by simpa [hrest, hcons] using hb, hle⟩ (by omega) (by omega)
    refine ⟨s', hshort.trans hs', ?_⟩
    rw [bftSeqNumLoop, if_pos ⟨hlast, s.chain.genesisId_le_lastId⟩, hseq, if_neg (by omega),
      if_neg (by omega), hs₁, ok_bind, heq]

/-! ## The prepared batches -/

variable {recovery : ℕ → Option (Block U)} {blocks : List (Block U)}

theorem revertBatches_of_gt {stable id j : ℕ} (hj : id < j) :
    revertBatches stable blocks id recovery j = recovery j := by
  fun_induction revertBatches stable blocks id recovery with
  | case1 b b' rest id recovery hgt ih =>
    rw [ih (by omega)]
    split_ifs
    · rfl
    · rw [Function.update_of_ne (by omega)]
  | case2 => rfl
  | case3 => rfl

/-- From an empty database, every new block that is not the only one has its own batch. -/
theorem revertBatches_eq {stable id i : ℕ} (hid : blocks.length ≤ id) (hi : i + 1 < blocks.length)
    (hnew : ∀ b ∈ blocks.take (i + 1), stable < b.seqNum) (hempty : ∀ j ≤ id, recovery j = none) :
    revertBatches stable blocks id recovery (id - i) = blocks[i]? := by
  induction blocks generalizing id i recovery with
  | nil => cases hi
  | cons b rest ih =>
    rcases rest with _ | ⟨b', rest⟩
    · simp at hi
    simp only [length_cons] at hid hi ih
    rw [revertBatches, if_pos (hnew b (by simp)), hempty id (le_refl id)]
    rcases i with _ | i
    · simp [revertBatches_of_gt (show id - 1 < id by omega)]
    · rw [show id - (i + 1) = id - 1 - i by omega, List.getElem?_cons_succ]
      refine ih (by omega) (by omega) (fun c hc => hnew c (mem_cons_of_mem b hc)) fun j hj => ?_
      simp [Function.update_of_ne (show j ≠ id by omega), hempty j (by omega)]

theorem revertBatches_of_le {stable id : ℕ} {c : Chain U}
    (h : c.blocks.length ≤ 1 ∨ c.lastSeqNum ≤ stable) :
    revertBatches stable c.blocks id recovery = recovery := by
  rcases hb : c.blocks with _ | ⟨b, _ | ⟨b', rest⟩⟩
  · rfl
  · rfl
  · rw [revertBatches, if_neg]
    simp [lastSeqNum, hb] at h
    omega

/-- The storage as the synchronisation finds it. -/
def prepared (cfg : Config) (s : Storage U) : Storage U :=
  if cfg.v4 then storeLastReachableRevertBatch s else s

theorem prepared_eq (cfg : Config) (s : Storage U) :
    prepared cfg s = { s with recovery := (prepared cfg s).recovery } := by
  unfold prepared storeLastReachableRevertBatch
  split_ifs
  · split <;> rfl
  · rfl

@[simp] theorem prepared_chain : (prepared cfg s).chain = s.chain := by rw [prepared_eq]

@[simp] theorem prepared_metadata : (prepared cfg s).metadata = s.metadata := by rw [prepared_eq]

@[simp] theorem prepared_snapshot : (prepared cfg s).snapshot = s.snapshot := by rw [prepared_eq]

@[simp] theorem prepared_reverted : (prepared cfg s).reverted = s.reverted := by rw [prepared_eq]

theorem start_eq (cfg : Config) (s : Storage U) :
    start cfg s = execute cfg (prepared cfg s) s.metadata.lastExecutedSeqNum
      cfg.maxNumOfRequestsInBatch := by
  rw [← @prepared_metadata U cfg s]
  rfl

/-! ## A start -/

/-- What holds of the storage of every replica: no batch is left over, and the blocks above the
persisted block id are newer than the last executed number, which is not below the snapshot. -/
structure Stored (cfg : Config) (s : Storage U) : Prop where
  recovery : ∀ id, s.recovery id = none
  snapshot_le : ∀ stable ∈ s.snapshot, stable ≤ s.metadata.lastExecutedSeqNum
  le_lastId : ∀ m ∈ s.metadata.lastBlockId, m ≤ s.chain.lastId
  new : ∀ m ∈ s.metadata.lastBlockId, ∀ b ∈ s.chain.blocks.take (s.chain.lastId - m),
    s.metadata.lastExecutedSeqNum < b.seqNum
  snapshot_isSome : ∀ m ∈ s.metadata.lastBlockId, cfg.v4 → m < s.chain.lastId → s.snapshot.isSome
  sorted : s.metadata.lastBlockId = none →
    s.chain.blocks.Pairwise fun newer older => older.seqNum ≤ newer.seqNum

theorem Stored.deletable {m : ℕ} (h : Stored cfg s) (hm : s.metadata.lastBlockId = some m)
    (hgen : s.chain.lastId ≤ m ∨ s.chain.genesisId ≤ m) :
    Deletable cfg (s.chain.lastId - m) (prepared cfg s) := by
  intro i hi
  have hlen : i + 1 < s.chain.blocks.length := by
    have hgen := hgen.resolve_left (by omega)
    unfold genesisId lastId at *
    split_ifs at hgen with hnil
    · simp only [List.isEmpty_iff] at hnil
      simp [hnil, s.chain.pruned_eq hnil] at hi
    · omega
  rw [prepared_eq]
  refine ⟨hlen, fun hv4 => ?_⟩
  obtain ⟨stable, hst⟩ := isSome_iff_exists.1 (h.snapshot_isSome m hm hv4 (by omega))
  simp only [prepared, hv4, if_true, storeLastReachableRevertBatch, hst]
  refine revertBatches_eq (le_add_left _ _) hlen (fun b hb => ?_) fun j _ => h.recovery j
  exact lt_of_le_of_lt (h.snapshot_le stable hst)
    (h.new m hm b (take_subset_take_left _ (by omega) hb))

theorem Shortened.restored {s'' : Storage U} (h : Shortened d (prepared cfg s) s')
    (hkept : s.chain.blocks.drop d = kept s) (hchain : s''.chain = s'.chain)
    (hframe : s''.snapshot = s'.snapshot ∧ s''.reverted = s'.reverted)
    (hrec : ∀ id, s''.recovery id = none)
    (hmeta : s''.metadata = ⟨some s''.chain.lastId, s.metadata.lastExecutedSeqNum⟩) :
    Restored s s'' := by
  obtain ⟨l, hl, hown⟩ := h.reverted
  refine ⟨?_, ?_, hrec, ⟨l, ?_, hown⟩, ?_, hmeta⟩
  · rw [hchain, h.pruned, prepared_chain]
  · rw [hchain, h.blocks, prepared_chain, hkept]
  · rw [hframe.2, hl, prepared_reverted]
  · rw [hframe.1, h.snapshot, prepared_snapshot]

theorem Stored.start_tracked {m : ℕ} (h : Stored cfg s) (hm : s.metadata.lastBlockId = some m)
    (hmax : 1 ≤ cfg.maxNumOfRequestsInBatch) (hrec : Recoverable cfg s) : RestartsWell cfg s := by
  have hle := h.le_lastId m hm
  simp only [Recoverable, hm] at hrec
  have hdel := h.deletable hm (hrec.imp_right And.right)
  have hlen : s.chain.lastId - m ≤ s.chain.blocks.length := by
    by_contra hlt
    have := (hdel (s.chain.lastId - m - 1) (by omega)).1
    rw [prepared_chain] at this
    omega
  obtain ⟨s', hs', heq⟩ := blockIdLoop_eq hdel
    (show (prepared cfg s).chain.lastId = m + _ by rw [prepared_chain]; omega)
    (lt_succ_of_le hlen) (show _ ∨ 0 + _ < cfg.maxNumOfRequestsInBatch by omega)
  refine ⟨onFinishDeleteLastReachable cfg s', ?_, ?_⟩
  · rw [start_eq]
    unfold execute executeBasedOnBlockId
    simp only [prepared_metadata, hm, prepared_chain]
    rw [if_neg (by omega), ← heq]
  · have hlast : s'.chain.lastId = m := by
      unfold lastId at *
      rw [hs'.pruned, hs'.blocks, prepared_chain, length_drop]
      omega
    have hmeta := hs'.metadata.trans prepared_metadata
    have hempty := hs'.recovery
    unfold onFinishDeleteLastReachable
    split_ifs with hv4
    · exact hs'.restored (by simp [kept, hm]) rfl ⟨rfl, rfl⟩ (fun _ => rfl)
        (by simp only [hmeta, hlast, ← hm])
    · refine hs'.restored (by simp [kept, hm]) rfl ⟨rfl, rfl⟩ ?_ (by simp only [hmeta, hlast, ← hm])
      rw [hempty, prepared, if_neg hv4]
      exact h.recovery

theorem filter_eq_drop_countP {e : ℕ}
    (h : blocks.Pairwise fun newer older => older.seqNum ≤ newer.seqNum) :
    blocks.drop (blocks.countP fun b => e < b.seqNum) = blocks.filter (fun b => b.seqNum ≤ e) ∧
      ∀ b ∈ blocks.take (blocks.countP fun b => e < b.seqNum), e < b.seqNum := by
  induction blocks with
  | nil => simp
  | cons b rest ih =>
    obtain ⟨hhead, htail⟩ := pairwise_cons.1 h
    by_cases hb : e < b.seqNum
    · simpa [hb, not_le.2 hb] using ih htail
    · have hnone : ∀ c ∈ b :: rest, c.seqNum ≤ e := by
        simpa [not_lt.1 hb] using fun c hc => le_trans (hhead c hc) (not_lt.1 hb)
      rw [countP_eq_zero.2 fun c hc => by simpa using hnone c hc,
        filter_eq_self.2 fun c hc => by simpa using hnone c hc]
      simp

theorem Stored.start_untracked (h : Stored cfg s) (hnone : s.metadata.lastBlockId = none)
    (hrec : Recoverable cfg s) : RestartsWell cfg s := by
  obtain ⟨hdrop, hnew⟩ := filter_eq_drop_countP (e := s.metadata.lastExecutedSeqNum) (h.sorted hnone)
  have hkept : s.chain.blocks.drop (unexecuted s) = kept s := by
    rw [kept, hnone]
    exact hdrop
  simp only [Recoverable, hnone] at hrec
  have hempty : ∀ id, (prepared cfg s).recovery id = none := by
    intro id
    unfold prepared storeLastReachableRevertBatch
    split_ifs with hv4
    · rcases hst : s.snapshot with _ | stable
      · exact h.recovery id
      · have hle := (hrec.resolve_right (by simp [hv4])).2 hv4 stable hst
        simp only [revertBatches_of_le hle, h.recovery id]
    · exact h.recovery id
  unfold RestartsWell
  rw [start_eq]
  unfold execute executeBasedOnBftSeqNum
  simp only [prepared_metadata, hnone, prepared_chain]
  by_cases hnothing : s.metadata.lastExecutedSeqNum = 0 ∨ s.chain.blocks = []
  · -- there is nothing to look at, and nothing is deleted
    have hzero : unexecuted s = 0 := by
      rcases hrec with hrec | ⟨-, he, -, hlt⟩
      · exact hrec.1
      · simp [hnothing.resolve_left he] at hlt
    rw [hzero] at hkept
    split_ifs with he
    · rw [ok_bind]
      exact ⟨_, rfl, shortened_zero.restored hkept rfl ⟨rfl, rfl⟩ hempty (by
        simp [persistLastBlockId])⟩
    · have hnil := hnothing.resolve_left he
      have hlast : s.chain.lastId = 0 := by simp [lastId, hnil, s.chain.pruned_eq hnil]
      rw [bftSeqNumLoop, prepared_chain, if_neg fun hc => hc.1 hlast, ok_bind]
      unfold onFinishDeleteLastReachable
      split_ifs
      · exact ⟨_, rfl, shortened_zero.restored hkept rfl ⟨rfl, rfl⟩ (fun _ => rfl) (by
          simp [persistLastBlockId])⟩
      · exact ⟨_, rfl, shortened_zero.restored hkept rfl ⟨rfl, rfl⟩ hempty (by
          simp [persistLastBlockId])⟩
  · obtain ⟨he, hne⟩ := not_or.1 hnothing
    have hlt : unexecuted s < s.chain.blocks.length := by
      have := length_pos_iff.2 hne
      omega
    have hold : s.chain.blocks[unexecuted s].seqNum ≤ s.metadata.lastExecutedSeqNum := by
      have hmem : s.chain.blocks[unexecuted s] ∈ s.chain.blocks.drop (unexecuted s) :=
        mem_drop_iff_getElem.2 ⟨0, by omega, by simp⟩
      rw [hkept, kept, hnone] at hmem
      simpa using (mem_filter.1 hmem).2
    have hdel : Deletable cfg (unexecuted s) (prepared cfg s) := by
      refine fun i hi => ⟨by rw [prepared_chain]; omega, fun hv4 => ?_⟩
      rw [(hrec.resolve_right (by simp [hv4])).1] at hi
      cases hi
    obtain ⟨s', hs', heq⟩ := bftSeqNumLoop_eq hdel (by rw [prepared_chain]; exact hnew)
      ⟨_, by rw [prepared_chain]; exact List.getElem?_eq_getElem hlt, hold⟩
      (lt_succ_of_lt hlt) (show 0 + _ ≤ cfg.maxNumOfRequestsInBatch ∨ _ by omega)
    rw [if_neg he, heq, ok_bind]
    refine ⟨_, rfl, hs'.restored hkept rfl ⟨rfl, rfl⟩ (fun id => ?_) ?_⟩
    · exact (congrFun hs'.recovery id).trans (hempty id)
    · simp [persistLastBlockId, hs'.metadata]

theorem Stored.restartsWell (h : Stored cfg s) (hmax : 1 ≤ cfg.maxNumOfRequestsInBatch)
    (hrec : Recoverable cfg s) : RestartsWell cfg s := by
  cases hm : s.metadata.lastBlockId with
  | some m => exact h.start_tracked hm hmax hrec
  | none => exact h.start_untracked hm hrec

/-! ## Runs -/

variable {r r' : Replica U}

/-- A replica before its first start. -/
structure Initial (cfg : Config) (r : Replica U) : Prop where
  stored : Stored cfg r.storage
  lastBlockId : r.storage.metadata.lastBlockId = none
  stopped : r.up = false ∧ r.executing = none ∧ r.lastBlockSn = none

/-- What holds of a replica along a run: a batch is executed only after the first start, with a
number above the last executed one, and the snapshot is from before it. -/
structure Consistent (cfg : Config) (r : Replica U) : Prop where
  stored : Stored cfg r.storage
  stopped : r.storage.metadata.lastBlockId = none → r.up = false ∧ r.executing = none
  lt_seqNum : ∀ n k, r.executing = some (n, k) → r.storage.metadata.lastExecutedSeqNum < n
  lastBlockSn : ∀ sn ∈ r.lastBlockSn,
    sn ≤ r.storage.metadata.lastExecutedSeqNum ∨ ∃ k, r.executing = some (sn, k)
  snapshot_isSome : cfg.v4 → r.lastBlockSn.isSome → r.storage.snapshot.isSome

theorem Restored.stored (h : Restored s s') (hs : Stored cfg s) : Stored cfg s' := by
  have hmeta := h.metadata
  refine ⟨h.recovery, ?_, ?_, ?_, ?_, ?_⟩
  · simpa [hmeta, h.snapshot] using hs.snapshot_le
  all_goals simp [hmeta]

theorem Consistent.restart (h : Restored r.storage s) (hr : Consistent cfg r) :
    Consistent cfg ⟨s, true, none, none⟩ :=
  ⟨h.stored hr.stored, by simp [h.metadata], nofun, nofun, nofun⟩

section

variable (h : Consistent cfg r)

include h

theorem Consistent.snapshot_add {n k : ℕ} (hex : r.executing = some (n, k))
    (hv4 : cfg.v4) : ∃ stable ≤ r.storage.metadata.lastExecutedSeqNum,
      onNewBFTSequenceNumber r.lastBlockSn r.storage.snapshot n = some stable := by
  have hold : r.storage.snapshot.isSome →
      ∃ stable ≤ r.storage.metadata.lastExecutedSeqNum, r.storage.snapshot = some stable := by
    intro hsome
    obtain ⟨stable, hst⟩ := isSome_iff_exists.1 hsome
    exact ⟨stable, h.stored.snapshot_le stable hst, hst⟩
  unfold onNewBFTSequenceNumber
  rcases hsn : r.lastBlockSn with _ | sn
  · split_ifs with hsome
    · exact hold hsome
    · exact ⟨0, zero_le _, rfl⟩
  · dsimp only
    split_ifs with hlt
    · rcases h.lastBlockSn sn hsn with hle | ⟨k', hk'⟩
      · exact ⟨sn, hle, rfl⟩
      · simp [hex] at hk'
        omega
    · exact hold (h.snapshot_isSome hv4 (by simp [hsn]))

theorem Consistent.add {n k : ℕ} (hex : r.executing = some (n, k))
    (updates : U) : Consistent cfg (r.add cfg n k updates) := by
  have hlt := h.lt_seqNum n k hex
  have hle : r.lastBlockSn.getD 0 ≤ n := by
    rcases hsn : r.lastBlockSn with _ | sn
    · exact zero_le n
    · rcases h.lastBlockSn sn hsn with hle | ⟨k', hk'⟩
      · simp only [getD_some]
        omega
      · simp [hex] at hk'
        simp [hk']
  obtain ⟨m, hm⟩ : ∃ m, r.storage.metadata.lastBlockId = some m := by
    by_contra! hnone
    simp [h.stopped (eq_none_iff_forall_ne_some.2 hnone)] at hex
  have hnew := h.stored.new m hm
  have hlast := h.stored.le_lastId m hm
  have hsnap : ∀ stable, (r.add cfg n k updates).storage.snapshot = some stable →
      stable ≤ r.storage.metadata.lastExecutedSeqNum := by
    intro stable hst
    by_cases hv4 : cfg.v4
    · obtain ⟨stable', hle', heq⟩ := h.snapshot_add hex hv4
      simp only [Replica.add, hv4, if_true, heq, some.injEq] at hst
      omega
    · simp only [Replica.add, hv4] at hst
      exact h.stored.snapshot_le stable hst
  have hsome : cfg.v4 → (r.add cfg n k updates).storage.snapshot.isSome := by
    intro hv4
    obtain ⟨stable, -, heq⟩ := h.snapshot_add hex hv4
    simp [Replica.add, hv4, heq]
  have hadd : ((r.storage.chain.add ⟨n, updates⟩).lastId) = r.storage.chain.lastId + 1 := by
    simp [Chain.add, Chain.lastId, Nat.add_assoc]
  refine ⟨⟨h.stored.recovery, hsnap, ?_, ?_, fun _ _ hv4 _ => hsome hv4, ?_⟩, ?_, ?_, ?_,
    fun hv4 _ => hsome hv4⟩
  · simp only [Replica.add, hadd, hm, mem_def, some.injEq]
    omega
  · simp only [Replica.add, hadd, hm, mem_def, some.injEq, forall_eq', Nat.sub_add_comm hlast]
    simpa [Chain.add] using ⟨hlt, hnew⟩
  · simp [Replica.add, hm]
  · simp [Replica.add, hm]
  · simpa [Replica.add] using hlt
  · simp [Replica.add, max_eq_right hle]

theorem Consistent.finish {n k : ℕ} (hex : r.executing = some (n, k)) : Consistent cfg { r with
      storage := { r.storage with metadata := ⟨some r.storage.chain.lastId, n⟩ }
      executing := none } := by
  have hlt := h.lt_seqNum n k hex
  refine ⟨⟨h.stored.recovery, fun st hst => ?_, ?_, ?_, ?_, nofun⟩, nofun, nofun, fun sn hsn => ?_,
    h.snapshot_isSome⟩
  · exact le_trans (h.stored.snapshot_le st hst) hlt.le
  · simp
  · simp
  · simp
  · rcases h.lastBlockSn sn hsn with hle | ⟨k', hk'⟩
    · exact .inl (le_trans hle hlt.le)
    · simp [hex] at hk'
      exact .inl hk'.1.symm.le

theorem Consistent.prune (hup : r.up = true) (k : ℕ) :
    Consistent cfg { r with storage := { r.storage with chain := r.storage.chain.prune k } } := by
  have hlast : (r.storage.chain.prune k).lastId = r.storage.chain.lastId := by
    unfold Chain.prune Chain.lastId
    split_ifs with hk
    · dsimp only
      rw [length_take]
      omega
    · rfl
  have hprefix : ∃ n, (r.storage.chain.prune k).blocks = r.storage.chain.blocks.take n := by
    unfold Chain.prune
    split_ifs
    · exact ⟨_, rfl⟩
    · exact ⟨_, take_length.symm⟩
  refine ⟨⟨h.stored.recovery, h.stored.snapshot_le, ?_, fun m hm b hb => ?_, ?_, fun hnone => ?_⟩,
    h.stopped, h.lt_seqNum, h.lastBlockSn, h.snapshot_isSome⟩
  · rw [hlast]
    exact h.stored.le_lastId
  · rw [hlast] at hb
    obtain ⟨n, hn⟩ := hprefix
    dsimp only at hb
    rw [hn, take_take] at hb
    exact h.stored.new m hm b (take_subset_take_left _ (min_le_left _ _) hb)
  · rw [hlast]
    exact h.stored.snapshot_isSome
  · simp [h.stopped hnone] at hup

theorem Consistent.step {op : Op U} (hmax : 1 ≤ cfg.maxNumOfRequestsInBatch)
    (hop : op = .restart → Recoverable cfg r.storage) :
    ∃ r', step cfg r op = .ok r' ∧ Consistent cfg r' := by
  cases op with
  | begin n =>
    refine ⟨_, rfl, ?_⟩
    split_ifs with hgo
    · refine ⟨h.stored, fun hnone => ?_, ?_, fun sn hsn => ?_, h.snapshot_isSome⟩
      · simp [h.stopped hnone] at hgo
      · simpa using hgo.2.2
      · exact .inl (by simpa [hgo.2.1] using h.lastBlockSn sn hsn)
    · exact h
  | add updates =>
    refine ⟨_, rfl, ?_⟩
    rcases hex : r.executing with _ | ⟨n, k⟩
    · exact h
    · dsimp only
      split_ifs
      · exact h.add hex updates
      · exact h
  | finish =>
    refine ⟨_, rfl, ?_⟩
    rcases hex : r.executing with _ | ⟨n, k⟩
    · exact h
    · exact h.finish hex
  | prune k =>
    refine ⟨_, rfl, ?_⟩
    split_ifs with hup
    · exact h.prune hup k
    · exact h
  | restart =>
    obtain ⟨s', hs', hrestored⟩ := h.stored.restartsWell hmax (hop rfl)
    refine ⟨_, ?_, Consistent.restart hrestored h⟩
    rw [Kvbc.step, hs', ok_bind]

end

/-- **A crash does not prevent a restart** where the state is recoverable: along every run, whatever
was executed, pruned and restarted before, the start throws nothing, deletes exactly the blocks the
metadata does not know of, each by its own batch, and leaves no batch. -/
theorem restartsWell_of_recoverable {ops : List (Op U)} (hmax : 1 ≤ cfg.maxNumOfRequestsInBatch)
    (hinit : Initial cfg r)
    (hops : EveryStep (step cfg) r (fun r op => op = .restart → Recoverable cfg r.storage) ops) :
    ∃ r', run (step cfg) r ops = .ok r' ∧
      (Recoverable cfg r'.storage → RestartsWell cfg r'.storage) := by
  have hstart : Consistent cfg r := by
    refine ⟨hinit.stored, fun _ => ⟨hinit.stopped.1, hinit.stopped.2.1⟩, ?_, ?_, ?_⟩
    all_goals simp [hinit.stopped]
  obtain ⟨r', hrun, h⟩ := run_induction (P := fun _ r => Consistent cfg r) hstart
    (fun _ _ _ h hop => h.step hmax hop) hops
  exact ⟨r', hrun, h.stored.restartsWell hmax⟩

def newReplica : Replica Unit :=
  ⟨⟨⟨0, [], fun _ => rfl⟩, ⟨none, 0⟩, none, fun _ => none, []⟩, false, none, none⟩

/-- Two batches of one request; the second one is not finished. -/
def secondUnfinished : List (Op Unit) := [.restart, .begin 1, .add (), .finish, .begin 2, .add ()]

theorem restartsWell_second_unfinished : ∃ r, run (step ⟨true, 2⟩) newReplica secondUnfinished =
    .ok r ∧ RestartsWell ⟨true, 2⟩ r.storage := by
  have hinit : Initial ⟨true, 2⟩ newReplica := by
    refine ⟨⟨fun _ => rfl, ?_, ?_, ?_, ?_, fun _ => .nil⟩, rfl, rfl, rfl, rfl⟩
    all_goals simp [newReplica]
  have hops : EveryStep (step ⟨true, 2⟩) newReplica
      (fun r op => op = .restart → Recoverable ⟨true, 2⟩ r.storage) secondUnfinished := by
    refine EveryStep.cons (fun _ => Or.inl ⟨rfl, nofun⟩) fun _ _ before op hpre _ _ hop => ?_
    have hmem := hpre.subset (mem_append_right before (mem_singleton_self op))
    simp [hop] at hmem
  obtain ⟨r, hrun, hwell⟩ := restartsWell_of_recoverable (by decide) hinit hops
  obtain rfl := Except.ok.inj hrun
  exact ⟨_, rfl, hwell (Or.inr (by decide))⟩

/-- With batches of at most one request the one block of the batch is not deleted: the limit is
looked at after the deletion. -/
theorem restart_throws_at_limit : ∃ r, run (step ⟨false, 1⟩) newReplica secondUnfinished = .ok r ∧
    start ⟨false, 1⟩ r.storage = .error .exception := ⟨_, rfl, rfl⟩

end ConcordBft.Kvbc
