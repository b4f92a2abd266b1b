import ConcordBft.Lib.Versioned
import ConcordBft.SparseMerkle.Reachable

/-!
# The stale index

The stale keys of an update are those that were reachable from the root before the update and are
no longer. Stale keys never become reachable again, so deleting the stale keys of all versions up to
some version keeps the trees of the later versions and nothing else.
-/

namespace ConcordBft.SparseMerkle

open Verif Verif.Exec BatchedInternalNode Nat Database List

variable {hasher : Hasher} {db : Database} {root : BatchedInternalNode} {T T' : LeafTrie}
  {cache : UpdateCache} {m : Hash → Option Hash} {ins : List Hash} {k : InternalNodeKey}
  {l : LeafKey} {v : Version}

def DistinctKeyHashes (hasher : Hasher) (update : Update) : Prop :=
  (update.updates.map fun keyValue => hasher.hash keyValue.1).Nodup

/-! ## Reachable from the latest root -/

theorem lookup_of_fetch_startCache {M : BatchedInternalNode}
    (h : (startCache db root).fetch k = some M) : db.internalNodes.lookup k = some M := by
  rw [fetch_startCache] at h
  split_ifs at h
  exact h

section

variable (h : Stored hasher db root T)

include h

theorem Stored.empty_of_zero (hzero : db.latestVersion = 0) : root = .empty ∧ T = .empty := by
  have hroot : root = .empty := by
    have hlatest := h.latest
    rw [getLatestRoot, if_pos hzero] at hlatest
    exact (Except.ok.inj hlatest).symm
  refine ⟨hroot, ?_⟩
  by_contra hne
  have hfull := h.rep.full hne [] (zero_le 4)
  have hslot : (startCache db root).getRoot.slot [] = none := by
    rw [show (startCache db root).getRoot = root from rfl, hroot, slot_empty]
  rw [hslot] at hfull
  exact hne hfull.eq_empty

theorem Stored.lookup_root (hpos : db.latestVersion ≠ 0) :
    db.internalNodes.lookup (.root db.latestVersion) = some root := by
  have hlatest := h.latest
  rw [Database.getLatestRoot, if_neg hpos, Database.getInternal] at hlatest
  split at hlatest
  · next node hnode => rw [hnode, Except.ok.inj hlatest]
  · cases hlatest

theorem Stored.versionRep (hpos : db.latestVersion ≠ 0) : VersionRep hasher db db.latestVersion T :=
  ⟨root, h.lookup_root hpos, h.rep.subtree.inv,
    h.rep.subtree.rep.mono fun _ _ _ _ hM => lookup_of_fetch_startCache hM⟩

/-- The keys that are reachable when an update starts are those of the latest version. -/
theorem Stored.rootKey_iff (hzero : db.internalNodes.lookup (.root 0) = none) :
    (startCache db root).RootKey k ↔ db.Reachable db.latestVersion k := by
  have hversion : (startCache db root).getRoot.version = .ok db.latestVersion := h.version
  rw [UpdateCache.rootKey_iff hversion]
  by_cases hpos : db.latestVersion = 0
  · have hroot : (startCache db root).getRoot = .empty := (h.empty_of_zero hpos).1
    have hreach : ¬ Reach (startCache db root).fetch [] .empty k := by
      rw [reach_iff]
      rintro ⟨x, c, hslot, -⟩
      rw [slot_empty] at hslot
      cases hslot
    rw [hroot, hpos]
    simp [hreach, not_reachable hzero]
  · rw [reachable_iff (h.lookup_root hpos), and_iff_left hpos]
    refine or_congr_right (reach_iff_of_nodeRep h.rep.subtree.inv.slots (fun k _ _ M hM => ?_)
      h.rep.subtree.rep).symm
    exact lookup_of_fetch_startCache hM

theorem Stored.leafReachable_iff (hzero : db.internalNodes.lookup (.root 0) = none) :
    db.LeafReachable db.latestVersion l ↔ ∃ a ∈ T, a.key = l := by
  by_cases hpos : db.latestVersion = 0
  · rw [hpos, (h.empty_of_zero hpos).2]
    constructor
    · rintro ⟨k, -, -, -, hk, -⟩
      exact absurd hk (not_reachable hzero)
    · rintro ⟨a, ha, -⟩
      exact ha.elim
  · exact (h.versionRep hpos).leafReachable_iff

end

/-! ## One update -/

theorem UpdateInv.latestVersion_write
    (hinv : UpdateInv hasher (startCache db root) T m ins cache T') (update : Update) :
    (db.write (batchOf hasher update cache)).latestVersion = db.latestVersion ∨
      (db.write (batchOf hasher update cache)).latestVersion = db.latestVersion + 1 := by
  have hversion := hinv.version
  rw [SparseMerkle.latestVersion_write update hversion]
  split_ifs
  · exact .inl rfl
  · exact .inr hversion

section Update

variable (h : Stored hasher db root T)
  (hinv : UpdateInv hasher (startCache db root) T m ins cache T') (update : Update)

include h hinv

theorem Stored.rootKey_write :
    (startCache (db.write (batchOf hasher update cache)) cache.getRoot).RootKey k ↔
      cache.RootKey k := by
  have hversion := hinv.version
  have hdb : cache.dbReader = db := hinv.keys.same.dbReader
  refine or_congr Iff.rfl (reach_iff_of_nodeRep hinv.rep.subtree.inv.slots (fun k _ _ M hM => ?_)
    hinv.rep.subtree.rep)
  exact fetch_write update _ hversion hdb h.bound hM

theorem Stored.lookup_root_zero_write (hzero : db.internalNodes.lookup (.root 0) = none) :
    (db.write (batchOf hasher update cache)).internalNodes.lookup (.root 0) = none := by
  have hversion := hinv.version
  rw [lookup_write update hversion h.bound, if_neg, hzero]
  rw [hversion]
  exact (succ_ne_zero _).symm

end Update

/-! ## All versions -/

/-- The batch has the keys that are reachable from the version `v` only. -/
structure StaleFrom (db : Database) (v v' : Version) (batch : UpdateBatch) : Prop where
  internal : ∀ k, k ∈ batch.staleInternalKeys ↔ db.Reachable v k ∧ ¬ db.Reachable v' k
  leaf : ∀ l, l ∈ batch.staleLeafKeys ↔ db.LeafReachable v l ∧ ¬ db.LeafReachable v' l

/-- The versions that have been written so far, and the batches that have been returned. -/
structure History (hasher : Hasher) (db : Database) (batches : List UpdateBatch) : Prop where
  zero : db.internalNodes.lookup (.root 0) = none
  bound : ∀ k, (db.internalNodes.lookup k).isSome → k.version ≤ db.latestVersion
  rep : ∀ v, v ≠ 0 → v ≤ db.latestVersion → ∃ T, VersionRep hasher db v T
  keys : VersionedReach db.Reachable InternalNodeKey.version
  leafKeys : VersionedReach db.LeafReachable LeafKey.version
  ownKey : ∀ k, (db.internalNodes.lookup k).isSome → db.Reachable k.version k
  ownLeaf : ∀ l, (db.leafNodes.lookup l).isSome → db.LeafReachable l.version l
  batch : ∀ b ∈ batches, (b.staleInternalKeys = ∅ ∧ b.staleLeafKeys = ∅) ∨
    ∃ v, v < db.latestVersion ∧ b.staleSinceVersion = v + 1 ∧ StaleFrom db v (v + 1) b
  covered : ∀ v, v < db.latestVersion →
    ∃ b ∈ batches, b.staleSinceVersion = v + 1 ∧ StaleFrom db v (v + 1) b

theorem Database.not_leafReachable (hroot : db.internalNodes.lookup (.root v) = none) :
    ¬ db.LeafReachable v l := by
  rintro ⟨k, -, -, -, hk, -⟩
  exact not_reachable hroot hk

theorem lookup_root_of_lt (hbound : ∀ k, (db.internalNodes.lookup k).isSome →
    k.version ≤ db.latestVersion) (hv : db.latestVersion < v) :
    db.internalNodes.lookup (.root v) = none := by
  by_contra hne
  have hle := hbound (.root v) (Option.isSome_iff_ne_none.mpr hne)
  exact absurd hv (not_lt.mpr hle)

section Extend

variable {db' : Database} {batches : List UpdateBatch} (hist : History hasher db batches)
  (hext : ∀ k M, db.internalNodes.lookup k = some M → db'.internalNodes.lookup k = some M)
  (hzero : db'.internalNodes.lookup (.root 0) = none)

include hist hext hzero

theorem History.reachable_extend (hv : v ≤ db.latestVersion) :
    db'.Reachable v k ↔ db.Reachable v k := by
  by_cases hpos : v = 0
  · rw [hpos, iff_false_intro (not_reachable hzero), iff_false_intro (not_reachable hist.zero)]
  · obtain ⟨T, hT⟩ := hist.rep v hpos hv
    exact hT.reachable_extend hext

theorem History.leafReachable_extend (hv : v ≤ db.latestVersion) :
    db'.LeafReachable v l ↔ db.LeafReachable v l := by
  by_cases hpos : v = 0
  · rw [hpos, iff_false_intro (not_leafReachable hzero),
      iff_false_intro (not_leafReachable hist.zero)]
  · obtain ⟨T, hT⟩ := hist.rep v hpos hv
    rw [hT.leafReachable_iff, (hT.extend hext).leafReachable_iff]

end Extend

theorem leafNodes_write {update : Update}
    (h : ((db.write (batchOf hasher update cache)).leafNodes.lookup l).isSome) :
    (db.leafNodes.lookup l).isSome ∨
      ∃ keyValue ∈ update.updates, l = ⟨hasher.hash keyValue.1, cache.version⟩ := by
  rw [write_eq_foldl] at h
  revert h
  refine foldlRecOn (motive := fun db' : Database => (db'.leafNodes.lookup l).isSome → _) _ _
    (fun hold => ?_) fun db' ih leaf hleaf h => ?_
  · have hput : (db.putNodes cache.version cache.internalNodes.entries).leafNodes = db.leafNodes :=
      foldlRecOn (motive := fun db' : Database => db'.leafNodes = _) _ _ rfl fun _ h _ _ => h
    exact .inl (hput ▸ hold)
  · by_cases hl : leaf.1 = l
    · obtain ⟨keyValue, hmem, rfl⟩ := mem_map.mp hleaf
      exact .inr ⟨keyValue, hmem, hl.symm⟩
    · rw [putLeaf, AList.lookup_insert_ne (Ne.symm hl)] at h
      exact ih h

section Write

variable {batches : List UpdateBatch} {db' : Database} (hist : History hasher db batches)
  (h : Stored hasher db root T) {update : Update}
  (hinv : UpdateInv hasher (startCache db root) T m
    (update.updates.map fun keyValue => hasher.hash keyValue.1) cache T')
  (hdb' : db' = db.write (batchOf hasher update cache))

include hinv hdb'

theorem UpdateInv.latestVersion_cases :
    db'.latestVersion = db.latestVersion ∨ db'.latestVersion = db.latestVersion + 1 := by
  rw [hdb']
  exact hinv.latestVersion_write update

include h

theorem Stored.stored_write : Stored hasher db' cache.getRoot T' := by
  rw [hdb']
  exact h.write hinv update

theorem Stored.extends_write (k : InternalNodeKey) (M : BatchedInternalNode)
    (hM : db.internalNodes.lookup k = some M) : db'.internalNodes.lookup k = some M := by
  have hle := h.bound k (by rw [hM]; rfl)
  rw [hdb', lookup_write update hinv.version h.bound, if_neg, hM]
  rw [hinv.version]
  exact Nat.ne_of_lt (Nat.lt_succ_of_le hle)

include hist

theorem History.zero_write : db'.internalNodes.lookup (.root 0) = none := by
  rw [hdb']
  exact h.lookup_root_zero_write hinv update hist.zero

theorem History.reachable_write (hv : v ≤ db.latestVersion) :
    db'.Reachable v k ↔ db.Reachable v k :=
  hist.reachable_extend (h.extends_write hinv hdb') (hist.zero_write h hinv hdb') hv

theorem History.leafReachable_write (hv : v ≤ db.latestVersion) :
    db'.LeafReachable v l ↔ db.LeafReachable v l :=
  hist.leafReachable_extend (h.extends_write hinv hdb') (hist.zero_write h hinv hdb') hv

theorem History.rootKey_write : cache.RootKey k ↔ db'.Reachable db'.latestVersion k := by
  rw [hdb', ← h.rootKey_write hinv update]
  exact (h.write hinv update).rootKey_iff (h.lookup_root_zero_write hinv update hist.zero)

theorem History.mem_write : db'.LeafReachable db'.latestVersion l ↔ ∃ a ∈ T', a.key = l := by
  have hzero := hist.zero_write h hinv hdb'
  rw [hdb'] at hzero ⊢
  exact (h.write hinv update).leafReachable_iff hzero

/-- **The stale keys of an update** are the keys that are no longer reachable. -/
theorem History.staleFrom_write (hdistinct : DistinctKeyHashes hasher update) :
    StaleFrom db' db.latestVersion db'.latestVersion (batchOf hasher update cache) where
  internal k := by
    have hmem : k ∈ (batchOf hasher update cache).staleInternalKeys ↔ k ∈ cache.staleInternalKeys :=
      Iff.rfl
    have hstart : k ∉ (startCache db root).staleInternalKeys := Finset.notMem_empty k
    rw [hmem, hinv.keys.mem k, h.rootKey_iff hist.zero, hist.rootKey_write h hinv hdb',
      hist.reachable_write h hinv hdb' le_rfl, or_iff_right hstart]
    refine and_iff_right_of_imp fun hk => ?_
    -- nothing of the new version was reachable before
    exact Nat.ne_of_lt (Nat.lt_succ_of_le (hist.keys.le hk.1))
  leaf l := by
    have hmem : l ∈ (batchOf hasher update cache).staleLeafKeys ↔ l ∈ cache.staleLeafKeys :=
      Iff.rfl
    rw [hmem, (hinv.leaves hdistinct).mem l, hist.leafReachable_write h hinv hdb' le_rfl,
      h.leafReachable_iff hist.zero, hist.mem_write h hinv hdb']

theorem History.keys_write : VersionedReach db'.Reachable InternalNodeKey.version := by
  have hstored := h.stored_write hinv hdb'
  refine hist.keys.extend (fun v hv k => hist.reachable_write h hinv hdb' hv)
    (hinv.latestVersion_cases hdb') (fun v hv k => ?_) (fun hlatest k hk => ?_)
    fun k hk hold => ?_
  · exact not_reachable (lookup_root_of_lt hstored.bound hv)
  · have hpos : db'.latestVersion ≠ 0 := by
      rw [hlatest]
      exact succ_ne_zero _
    exact hstored.bound k ((hstored.versionRep hpos).stored hk)
  · by_contra hne
    rw [hist.reachable_write h hinv hdb' le_rfl, ← h.rootKey_iff hist.zero] at hold
    rw [← hist.rootKey_write h hinv hdb'] at hk
    exact hold (hinv.keys.old k hne hk)

theorem History.leafKeys_write : VersionedReach db'.LeafReachable LeafKey.version := by
  have hstored := h.stored_write hinv hdb'
  refine hist.leafKeys.extend (fun v hv l => hist.leafReachable_write h hinv hdb' hv)
    (hinv.latestVersion_cases hdb') (fun v hv l => ?_) (fun _ l hl => ?_)
    fun l hl hold => ?_
  · exact not_leafReachable (lookup_root_of_lt hstored.bound hv)
  · obtain ⟨a, ha, rfl⟩ := (hist.mem_write h hinv hdb').mp hl
    exact hstored.leaves a ha
  · rw [hist.leafReachable_write h hinv hdb' le_rfl, h.leafReachable_iff hist.zero] at hold
    obtain ⟨a, ha, rfl⟩ := (hist.mem_write h hinv hdb').mp hl
    rcases hinv.versions a ha with ha₀ | ⟨hv, -⟩
    · exact absurd ⟨a, ha₀, rfl⟩ hold
    · exact hv

/-- Every node that the update wrote is reachable from its root. -/
theorem History.ownKey_write (k : InternalNodeKey) (hk : (db'.internalNodes.lookup k).isSome) :
    db'.Reachable k.version k := by
  have hversion := hinv.version
  have hlookup : db'.internalNodes.lookup k = if k.version = cache.version then
      cache.internalNodes.lookup k.path else db.internalNodes.lookup k := by
    rw [hdb']
    exact lookup_write update hversion h.bound
  rw [hlookup] at hk
  split_ifs at hk with hnew
  · have hlatest : db'.latestVersion = cache.version := by
      rw [hdb', latestVersion_write update hversion, if_neg (entries_ne_nil_iff.mpr ⟨_, hk⟩)]
    have hroot := hinv.rep.nonempty _ hk
    have hget : cache.getRoot.version = .ok cache.version := by
      rw [hinv.rep.version, if_pos hroot]
    obtain ⟨v, path⟩ := k
    obtain rfl : v = cache.version := hnew
    rw [show (⟨cache.version, path⟩ : InternalNodeKey).version = db'.latestVersion from
      hlatest.symm, ← hist.rootKey_write h hinv hdb', UpdateCache.rootKey_iff hget]
    rcases path with _ | ⟨x, path⟩
    · exact .inl ⟨rfl, by rw [hversion]; exact succ_ne_zero _⟩
    · have hcached := (hinv.rep.subtree.child x).cached (x :: path) ⟨path, rfl⟩ hk
      exact .inr (reach_iff.mpr ⟨x, hcached⟩)
  · exact (hist.reachable_write h hinv hdb' (h.bound k hk)).mpr (hist.ownKey k hk)

theorem History.ownLeaf_write (l : LeafKey) (hl : (db'.leafNodes.lookup l).isSome) :
    db'.LeafReachable l.version l := by
  have hversion := hinv.version
  rw [hdb'] at hl
  rcases leafNodes_write hl with hold | ⟨keyValue, hmem, rfl⟩
  · have hown := hist.ownLeaf l hold
    have hle : l.version ≤ db.latestVersion := by
      by_contra hlt
      exact not_leafReachable (lookup_root_of_lt hist.bound (not_le.mp hlt)) hown
    exact (hist.leafReachable_write h hinv hdb' hle).mpr hown
  · obtain ⟨a, ha, hkey⟩ := hinv.inserted _ (mem_map_of_mem hmem)
    have hnew : a.key.version = db.latestVersion + 1 := by
      rw [hkey]
      rfl
    have hroot : (cache.internalNodes.lookup []).isSome := by
      rcases hinv.versions a ha with hold | ⟨-, hroot⟩
      · have hle := h.leaves a hold
        rw [hnew] at hle
        exact absurd hle (not_succ_le_self _)
      · exact hroot
    have hlatest : db'.latestVersion = cache.version := by
      rw [hdb', latestVersion_write update hversion, if_neg (entries_ne_nil_iff.mpr ⟨_, hroot⟩)]
    have hl' := (hist.mem_write h hinv hdb').mpr ⟨a, ha, hkey⟩
    rw [hlatest] at hl'
    rw [hversion] at hl' ⊢
    exact hl'

/-- **One update** extends the history by its version and its batch. -/
theorem History.write (hdistinct : DistinctKeyHashes hasher update) :
    History hasher db' (batches ++ [batchOf hasher update cache]) := by
  have hstored := h.stored_write hinv hdb'
  have hext := h.extends_write hinv hdb'
  have hzero := hist.zero_write h hinv hdb'
  have hstale := hist.staleFrom_write h hinv hdb' hdistinct
  have hversion := hinv.version
  have hcases := hinv.latestVersion_cases hdb'
  have hle : db.latestVersion ≤ db'.latestVersion := by
    rcases hcases with heq | heq
    · rw [heq]
    · rw [heq]
      exact le_succ _
  have hold : ∀ {v b}, v < db.latestVersion → StaleFrom db v (v + 1) b →
      StaleFrom db' v (v + 1) b := by
    refine fun hv hb => ⟨fun k => ?_, fun l => ?_⟩
    · rw [hb.internal k, hist.reachable_extend hext hzero hv.le, hist.reachable_extend hext hzero hv]
    · rw [hb.leaf l, hist.leafReachable_extend hext hzero hv.le,
        hist.leafReachable_extend hext hzero hv]
  refine ⟨hzero, hstored.bound, fun v hpos hv => ?_, hist.keys_write h hinv hdb',
    hist.leafKeys_write h hinv hdb', hist.ownKey_write h hinv hdb', hist.ownLeaf_write h hinv hdb',
    fun b hb => ?_, fun v hv => ?_⟩
  · by_cases hv' : v ≤ db.latestVersion
    · obtain ⟨T, hT⟩ := hist.rep v hpos hv'
      exact ⟨T, hT.extend hext⟩
    · obtain rfl : v = db'.latestVersion := by
        rcases hcases with heq | heq
        · exact absurd (hv.trans heq.le) hv'
        · exact le_antisymm hv (heq.le.trans (not_le.mp hv'))
      exact ⟨T', hstored.versionRep hpos⟩
  · rw [mem_append, mem_singleton] at hb
    rcases hb with hb | rfl
    · refine (hist.batch b hb).imp_right ?_
      rintro ⟨v, hv, hsince, hfrom⟩
      exact ⟨v, hv.trans_le hle, hsince, hold hv hfrom⟩
    · rcases hcases with heq | heq
      · rw [heq] at hstale
        refine .inl ⟨?_, ?_⟩
        · ext k
          simp [hstale.internal k]
        · ext l
          simp [hstale.leaf l]
      · rw [heq] at hstale
        exact .inr ⟨db.latestVersion, by rw [heq]; exact lt_succ_self _, hversion, hstale⟩
  · by_cases hv' : v < db.latestVersion
    · obtain ⟨b, hb, hsince, hfrom⟩ := hist.covered v hv'
      exact ⟨b, mem_append_left _ hb, hsince, hold hv' hfrom⟩
    · have hge := not_lt.mp hv'
      rcases hcases with heq | heq
      · exact absurd (hv.trans_le heq.le) hv'
      · rw [heq] at hv hstale
        obtain rfl : v = db.latestVersion := le_antisymm (le_of_lt_succ hv) hge
        exact ⟨_, mem_append_right _ (mem_singleton_self _), hversion, hstale⟩

end Write

end ConcordBft.SparseMerkle
