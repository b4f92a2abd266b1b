import ConcordBft.SparseMerkle.StaleIndex

/-!
# Deleting stale nodes

The stale index is what a database needs to delete old versions: the stale keys of all updates up to
the version `m` can be deleted, and then every node that is left belongs to the version `m` or to a
later one.
-/

namespace ConcordBft.SparseMerkle

open Verif Verif.Exec BatchedInternalNode Database

variable {hasher : Hasher} {db db' : Database} {batches : List UpdateBatch} {m v : Version}
  {k : InternalNodeKey} {l : LeafKey}

/-- The stale keys of all updates up to the version `m` are deleted. -/
def Database.deleteStale (db : Database) (batches : List UpdateBatch) (m : Version) : Database :=
  let stale := batches.filter fun batch => batch.staleSinceVersion ≤ m
  { db with
    leafNodes := filterKeys (fun l => !stale.any fun batch => l ∈ batch.staleLeafKeys) db.leafNodes
    internalNodes :=
      filterKeys (fun k => !stale.any fun batch => k ∈ batch.staleInternalKeys) db.internalNodes }

/-- Nothing that the versions from `m` on need was deleted from `db`, and everything else was. -/
structure Pruned (db db' : Database) (m : Version) : Prop where
  node : ∀ v, m ≤ v → ∀ k, db.Reachable v k →
    db'.internalNodes.lookup k = db.internalNodes.lookup k
  leaf : ∀ v, m ≤ v → ∀ l, db.LeafReachable v l → db'.leafNodes.lookup l = db.leafNodes.lookup l
  reachable : ∀ v, m ≤ v → ∀ k, db'.Reachable v k ↔ db.Reachable v k
  leafReachable : ∀ v, m ≤ v → ∀ l, db'.LeafReachable v l ↔ db.LeafReachable v l
  swept : ∀ k, (db'.internalNodes.lookup k).isSome →
    ∃ v, min m db.latestVersion ≤ v ∧ db.Reachable v k
  sweptLeaf : ∀ l, (db'.leafNodes.lookup l).isSome →
    ∃ v, min m db.latestVersion ≤ v ∧ db.LeafReachable v l

/-! ## Deleted keys -/

theorem lookup_deleteStale : (db.deleteStale batches m).internalNodes.lookup k =
    if ∃ b ∈ batches, b.staleSinceVersion ≤ m ∧ k ∈ b.staleInternalKeys then none
    else db.internalNodes.lookup k := by
  rw [deleteStale, lookup_filterKeys, ← ite_not]
  refine if_congr ?_ rfl rfl
  simp

theorem lookup_leaf_deleteStale : (db.deleteStale batches m).leafNodes.lookup l =
    if ∃ b ∈ batches, b.staleSinceVersion ≤ m ∧ l ∈ b.staleLeafKeys then none
    else db.leafNodes.lookup l := by
  rw [deleteStale, lookup_filterKeys, ← ite_not]
  refine if_congr ?_ rfl rfl
  simp

theorem History.deleted_iff (hist : History hasher db batches) :
    (∃ b ∈ batches, b.staleSinceVersion ≤ m ∧ k ∈ b.staleInternalKeys) ↔
      ∃ v, v < min m db.latestVersion ∧ LeftAfter db.Reachable v k := by
  constructor
  · rintro ⟨b, hb, hle, hk⟩
    rcases hist.batch b hb with ⟨hempty, -⟩ | ⟨v, hv, hsince, hfrom⟩
    · rw [hempty] at hk
      exact absurd hk (Finset.notMem_empty k)
    · rw [hsince] at hle
      exact ⟨v, lt_min hle hv, (hfrom.internal k).mp hk⟩
  · rintro ⟨v, hv, hleft⟩
    obtain ⟨b, hb, hsince, hfrom⟩ := hist.covered v (hv.trans_le (min_le_right _ _))
    refine ⟨b, hb, ?_, (hfrom.internal k).mpr hleft⟩
    rw [hsince]
    exact hv.trans_le (min_le_left _ _)

theorem History.leafDeleted_iff (hist : History hasher db batches) :
    (∃ b ∈ batches, b.staleSinceVersion ≤ m ∧ l ∈ b.staleLeafKeys) ↔
      ∃ v, v < min m db.latestVersion ∧ LeftAfter db.LeafReachable v l := by
  constructor
  · rintro ⟨b, hb, hle, hl⟩
    rcases hist.batch b hb with ⟨-, hempty⟩ | ⟨v, hv, hsince, hfrom⟩
    · rw [hempty] at hl
      exact absurd hl (Finset.notMem_empty l)
    · rw [hsince] at hle
      exact ⟨v, lt_min hle hv, (hfrom.leaf l).mp hl⟩
  · rintro ⟨v, hv, hleft⟩
    obtain ⟨b, hb, hsince, hfrom⟩ := hist.covered v (hv.trans_le (min_le_right _ _))
    refine ⟨b, hb, ?_, (hfrom.leaf l).mpr hleft⟩
    rw [hsince]
    exact hv.trans_le (min_le_left _ _)

/-! ## What is left -/

/-- A database that kept the nodes of a version has the same nodes reachable from it. -/
theorem reachable_of_kept
    (hsub : ∀ k M, db'.internalNodes.lookup k = some M → db.internalNodes.lookup k = some M)
    (hkept : ∀ k, db.Reachable v k → db'.internalNodes.lookup k = db.internalNodes.lookup k) :
    db'.Reachable v k ↔ db.Reachable v k := by
  constructor
  · intro h
    induction h with
    | root stored =>
      obtain ⟨M, hM⟩ := Option.isSome_iff_exists.mp stored
      exact .root (by rw [hsub _ _ hM]; rfl)
    | child _ stored link ih => exact .child ih (hsub _ _ stored) link
  · intro h
    induction h with
    | root stored => exact .root (by rwa [hkept _ (.root stored)])
    | child reachable stored link ih =>
      exact .child ih ((hkept _ reachable).trans stored) link

theorem leafReachable_of_kept (hreach : ∀ k, db'.Reachable v k ↔ db.Reachable v k)
    (hkept : ∀ k, db.Reachable v k → db'.internalNodes.lookup k = db.internalNodes.lookup k) :
    db'.LeafReachable v l ↔ db.LeafReachable v l := by
  constructor
  · rintro ⟨k, node, i, c, hk, hnode, hget, hkey⟩
    have hk' := (hreach k).mp hk
    exact ⟨k, node, i, c, hk', (hkept k hk').symm.trans hnode, hget, hkey⟩
  · rintro ⟨k, node, i, c, hk, hnode, hget, hkey⟩
    exact ⟨k, node, i, c, (hreach k).mpr hk, (hkept k hk).trans hnode, hget, hkey⟩

theorem History.pruned (hist : History hasher db batches) (m : Version) :
    Pruned db (db.deleteStale batches m) m := by
  have hnode : ∀ v, m ≤ v → ∀ k, db.Reachable v k →
      (db.deleteStale batches m).internalNodes.lookup k = db.internalNodes.lookup k := by
    intro v hv k hk
    rw [lookup_deleteStale, if_neg]
    rw [hist.deleted_iff]
    rintro ⟨j, hj, hleft⟩
    exact hist.keys.not_reach hleft (hj.trans_le ((min_le_left _ _).trans hv)) hk
  have hsub : ∀ k M, (db.deleteStale batches m).internalNodes.lookup k = some M →
      db.internalNodes.lookup k = some M := by
    intro k M hM
    rw [lookup_deleteStale] at hM
    split_ifs at hM
    exact hM
  have hreach : ∀ v, m ≤ v → ∀ k,
      (db.deleteStale batches m).Reachable v k ↔ db.Reachable v k := fun v hv k =>
    reachable_of_kept hsub (hnode v hv)
  refine ⟨hnode, fun v hv l hl => ?_, hreach, fun v hv l =>
    leafReachable_of_kept (hreach v hv) (hnode v hv), fun k hk => ?_, fun l hl => ?_⟩
  · rw [lookup_leaf_deleteStale, if_neg]
    rw [hist.leafDeleted_iff]
    rintro ⟨j, hj, hleft⟩
    exact hist.leafKeys.not_reach hleft (hj.trans_le ((min_le_left _ _).trans hv)) hl
  · rw [lookup_deleteStale] at hk
    split_ifs at hk with hdel
    · cases hk
    · rw [hist.deleted_iff] at hdel
      obtain ⟨v, hv, hreach, -⟩ := exists_reach_of_not_leftAfter (hist.ownKey k hk)
        fun j hj hleft => hdel ⟨j, hj, hleft⟩
      exact ⟨v, hv, hreach⟩
  · rw [lookup_leaf_deleteStale] at hl
    split_ifs at hl with hdel
    · cases hl
    · rw [hist.leafDeleted_iff] at hdel
      obtain ⟨v, hv, hreach, -⟩ := exists_reach_of_not_leftAfter (hist.ownLeaf l hl)
        fun j hj hleft => hdel ⟨j, hj, hleft⟩
      exact ⟨v, hv, hreach⟩

/-! ## Runs of updates -/

/-- The batch of an update has the keys that were reachable from the root of the version before it
and are not reachable from the root after it. -/
structure StaleExact (before after : Persisted) (batch : UpdateBatch) : Prop where
  version : before.tree.getVersion = .ok before.tree.dbReader.latestVersion
  version' : after.tree.getVersion = .ok after.tree.dbReader.latestVersion
  next : batch.staleSinceVersion = before.tree.dbReader.latestVersion + 1 ∧
    after.tree.dbReader.latestVersion = if batch.internalNodes = [] then
      before.tree.dbReader.latestVersion else batch.staleSinceVersion
  stale : StaleFrom after.tree.dbReader before.tree.dbReader.latestVersion
    after.tree.dbReader.latestVersion batch

theorem history_empty (hasher : Hasher) : History hasher .empty [] where
  zero := rfl
  bound k h := by cases h
  rep v hpos hv := absurd (Nat.le_zero.mp hv) hpos
  keys := ⟨fun h => absurd h (not_reachable rfl), fun h _ => absurd h (not_reachable rfl)⟩
  leafKeys := ⟨fun h => absurd h (not_leafReachable rfl),
    fun h _ => absurd h (not_leafReachable rfl)⟩
  ownKey k h := by cases h
  ownLeaf l h := by cases h
  batch b h := by cases h
  covered v h := absurd h (Nat.not_lt_zero v)

theorem History.update {s : Persisted} {T : LeafTrie} {contents : Hash → Option Hash}
    (hist : History hasher s.tree.dbReader s.batches)
    (hstored : Stored hasher s.tree.dbReader s.tree.root T) (hm : Contents contents T)
    {update : Update} (hdistinct : DistinctKeyHashes hasher update) :
    ∃ s' T' batch, s.update hasher update = .ok s' ∧ s'.batches = s.batches ++ [batch] ∧
      StaleExact s s' batch ∧ History hasher s'.tree.dbReader s'.batches ∧
      Stored hasher s'.tree.dbReader s'.tree.root T' ∧
      Contents (applyUpdate hasher contents update) T' := by
  obtain ⟨cache, T', hinv, hupdate⟩ := hstored.update hm s.tree rfl update
  have hversion : cache.version = s.tree.dbReader.latestVersion + 1 := hinv.keys.same.version
  have hstored' := hstored.write hinv update
  refine ⟨⟨⟨s.tree.dbReader.write (batchOf hasher update cache), cache.getRoot⟩,
    s.batches ++ [batchOf hasher update cache]⟩, T', batchOf hasher update cache, ?_, rfl,
    ⟨hstored.version, hstored'.version, ⟨hversion, ?_⟩,
      hist.staleFrom_write hstored hinv rfl hdistinct⟩,
    hist.write hstored hinv rfl hdistinct, hstored', hinv.contents⟩
  · rw [Persisted.update, hupdate, ok_bind]
  · rw [latestVersion_write update hversion]
    exact if_congr (by simp [batchOf]) rfl rfl

/-- **The stale index is exact.** After any sequence of updates, the batch of a further update has
exactly the keys that its version no longer needs. Deleting the stale keys of all versions up to
`m` keeps what the versions from `m` on need, and only this. -/
theorem stale_index_exact (hasher : Hasher) (updates : List Update)
    (hdistinct : ∀ update ∈ updates, DistinctKeyHashes hasher update) :
    ∃ s, persisted hasher updates = .ok s ∧
      (∀ m, Pruned s.tree.dbReader (s.tree.dbReader.deleteStale s.batches m) m) ∧
      ∀ update, DistinctKeyHashes hasher update →
        ∃ s' batch, s.update hasher update = .ok s' ∧ s'.batches = s.batches ++ [batch] ∧
          StaleExact s s' batch := by
  obtain ⟨s, hrun, hist, T, hstored, hm⟩ :
      ∃ s : Persisted, run (Persisted.update hasher) ⟨⟨.empty, .empty⟩, []⟩ updates = .ok s ∧
        History hasher s.tree.dbReader s.batches ∧
        ∃ T, Stored hasher s.tree.dbReader s.tree.root T ∧
          Contents (finalMap hasher updates) T := by
    have hsteps : EveryStep (Persisted.update hasher) ⟨⟨.empty, .empty⟩, []⟩
        (fun _ update => DistinctKeyHashes hasher update) updates :=
      fun before update hpre _ _ => hdistinct update (hpre.subset (by simp))
    refine run_induction
      (P := fun before (s : Persisted) => History hasher s.tree.dbReader s.batches ∧
        ∃ T, Stored hasher s.tree.dbReader s.tree.root T ∧ Contents (finalMap hasher before) T)
      ⟨history_empty hasher, .empty, stored_empty hasher, fun h v => by simp [finalMap]⟩ ?_ hsteps
    rintro before s update ⟨hist, T, hstored, hm⟩ hupdate
    obtain ⟨s', T', batch, hs', -, -, hist', hstored', hm'⟩ := hist.update hstored hm hupdate
    refine ⟨s', hs', hist', T', hstored', ?_⟩
    rwa [finalMap, List.foldl_append]
  refine ⟨s, hrun, hist.pruned, fun update hupdate => ?_⟩
  obtain ⟨s', T', batch, hs', hbatches, hexact, -⟩ := hist.update hstored hm hupdate
  exact ⟨s', batch, hs', hbatches, hexact⟩

/-- The first byte, 32 times. -/
def firstByteHasher : Hasher := ⟨fun bytes => ⟨fun _ => bytes.headD 0⟩, fun left _ => left⟩

/-- A key is written, overwritten together with a second key, and removed. -/
theorem stale_index_of_three_updates : ∃ s, persisted firstByteHasher
        [⟨[([1], [7])], []⟩, ⟨[([1], [8]), ([2], [9])], []⟩, ⟨[], [[1]]⟩] = .ok s ∧
      ∀ m, Pruned s.tree.dbReader (s.tree.dbReader.deleteStale s.batches m) m := by
  obtain ⟨s, hs, hpruned, -⟩ := stale_index_exact firstByteHasher
    [⟨[([1], [7])], []⟩, ⟨[([1], [8]), ([2], [9])], []⟩, ⟨[], [[1]]⟩] (by
      intro update hupdate
      simp only [List.mem_cons, List.not_mem_nil, or_false] at hupdate
      rcases hupdate with rfl | rfl | rfl
      · exact List.nodup_singleton _
      · show [firstByteHasher.hash [1], firstByteHasher.hash [2]].Nodup
        decide
      · exact List.nodup_nil)
  exact ⟨s, hs, hpruned⟩

end ConcordBft.SparseMerkle
