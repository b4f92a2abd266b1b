import ConcordBft.SparseMerkle.Batch

/-!
# Updates that are written to the database

A run of updates, each of which is written to the database before the next one. After every update
the latest root in the database represents the map of all updates so far, and all stored nodes have
versions up to that of the latest root. The root hash is the reference hash of the final map from
key hashes to value hashes. It does not depend on the order of the insertions, on how they were
divided into updates, or on keys that were removed again.
-/

namespace ConcordBft.SparseMerkle

open Verif Verif.Exec BatchedInternalNode Nat List Option UpdateCache

variable {hasher : Hasher} {T T' : LeafTrie} {cache : UpdateCache} {db : Database}
  {root : BatchedInternalNode} {m : Hash → Option Hash} {k : InternalNodeKey}

/-- A tree, with the batches that have been written to its database, the latest one last. -/
structure Persisted where
  tree : Tree
  batches : List UpdateBatch

def Persisted.update (hasher : Hasher) (state : Persisted) (update : Update) : Exec Persisted := do
  let (tree, batch) ← state.tree.updateAndWrite hasher update
  .ok ⟨tree, state.batches ++ [batch]⟩

/-- A tree over an empty database, after a sequence of updates. -/
def persisted (hasher : Hasher) (updates : List Update) : Exec Persisted := do
  let tree ← Tree.new Database.empty
  run (Persisted.update hasher) ⟨tree, []⟩ updates

/-! ## Writing to the database -/

namespace Database

/-- The nodes of a cache, under the version of the update. -/
def putNodes (db : Database) (version : Version)
    (nodes : List (Sigma fun _ : NibblePath => BatchedInternalNode)) : Database :=
  nodes.foldl (fun db node => db.putInternal ⟨version, node.1⟩ node.2) db

variable {version : Version}

theorem lookup_putNodes {path : NibblePath}
    (nodes : List (Sigma fun _ : NibblePath => BatchedInternalNode)) (hnodup : nodes.NodupKeys)
    (db : Database) : (db.putNodes version nodes).internalNodes.lookup ⟨version, path⟩ =
      (nodes.dlookup path).or (db.internalNodes.lookup ⟨version, path⟩) := by
  induction nodes generalizing db with
  | nil => rfl
  | cons node nodes ih =>
    obtain ⟨path', node⟩ := node
    rw [nodupKeys_cons] at hnodup
    have hih := ih hnodup.2 (db.putInternal ⟨version, path'⟩ node)
    refine hih.trans ?_
    by_cases hpath : path' = path
    · subst hpath
      have hnone : nodes.dlookup path' = none := dlookup_eq_none.mpr hnodup.1
      rw [hnone, none_or, dlookup_cons_eq, some_or]
      exact AList.lookup_insert _
    · rw [dlookup_cons_ne _ _ (Ne.symm hpath)]
      congr 1
      refine AList.lookup_insert_ne fun heq => hpath ?_
      exact (congrArg InternalNodeKey.path heq).symm

theorem latestVersion_putNodes
    (nodes : List (Sigma fun _ : NibblePath => BatchedInternalNode)) (db : Database)
    (hversion : db.latestVersion ≤ version) : (db.putNodes version nodes).latestVersion =
      if nodes = [] then db.latestVersion else version := by
  induction nodes generalizing db with
  | nil => rfl
  | cons node nodes ih =>
    have hput : (db.putInternal ⟨version, node.1⟩ node.2).latestVersion = version := by
      show (if db.latestVersion < version then version else db.latestVersion) = version
      split_ifs with h
      · rfl
      · exact le_antisymm hversion (not_lt.mp h)
    refine (ih _ hput.le).trans ?_
    rw [hput, ite_self, if_neg (by simp)]

end Database

/-! ## The stored tree -/

def startCache (db : Database) (root : BatchedInternalNode) : UpdateCache :=
  ⟨db.latestVersion + 1, db, ∅, ∅, root, ∅⟩

theorem fetch_startCache : (startCache db root).fetch k =
    if k.version = db.latestVersion + 1 then none else db.internalNodes.lookup k := rfl

/-- The latest root of the database represents the trie. -/
structure Stored (hasher : Hasher) (db : Database) (root : BatchedInternalNode) (T : LeafTrie) :
    Prop where
  latest : db.getLatestRoot = .ok root
  rep : RootRep hasher (startCache db root) T
  bound : ∀ k, (db.internalNodes.lookup k).isSome → k.version ≤ db.latestVersion
  leaves : ∀ a ∈ T, a.key.version ≤ db.latestVersion

theorem Stored.version (h : Stored hasher db root T) : root.version = .ok db.latestVersion :=
  h.rep.version

/-- The batch of an update that ends with the given cache. -/
def batchOf (hasher : Hasher) (update : Update) (cache : UpdateCache) : UpdateBatch where
  staleSinceVersion := cache.version
  staleInternalKeys := cache.staleInternalKeys
  staleLeafKeys := cache.staleLeafKeys
  internalNodes := cache.internalNodes.entries.map fun node => (⟨cache.version, node.1⟩, node.2)
  leafNodes := update.updates.map fun keyValue =>
    ((leafOf hasher cache.version keyValue).key, keyValue.2)

section Write

variable (update : Update) (hversion : cache.version = db.latestVersion + 1)

theorem write_eq_foldl (db : Database) (update : Update) (cache : UpdateCache) :
    db.write (batchOf hasher update cache) =
      (batchOf hasher update cache).leafNodes.foldl (fun db leaf => db.putLeaf leaf.1 leaf.2)
        (db.putNodes cache.version cache.internalNodes.entries) :=
  congrArg (foldl _ · _) foldl_map

theorem write_batchOf (db : Database) (update : Update) (cache : UpdateCache) :
    (db.write (batchOf hasher update cache)).internalNodes =
      (db.putNodes cache.version cache.internalNodes.entries).internalNodes ∧
    (db.write (batchOf hasher update cache)).latestVersion =
      (db.putNodes cache.version cache.internalNodes.entries).latestVersion := by
  rw [write_eq_foldl]
  exact foldlRecOn
    (motive := fun db' : Database => db'.internalNodes = _ ∧ db'.latestVersion = _) _ _ ⟨rfl, rfl⟩
    fun _ h _ _ => h

include hversion in
theorem latestVersion_write : (db.write (batchOf hasher update cache)).latestVersion =
    if cache.internalNodes.entries = [] then db.latestVersion else cache.version := by
  rw [(write_batchOf db update cache).2, Database.latestVersion_putNodes]
  rw [hversion]
  exact le_succ _

include hversion in
theorem lookup_write (hbound : ∀ k, (db.internalNodes.lookup k).isSome →
    k.version ≤ db.latestVersion) :
    (db.write (batchOf hasher update cache)).internalNodes.lookup k =
      if k.version = cache.version then cache.internalNodes.lookup k.path
      else db.internalNodes.lookup k := by
  obtain ⟨v, path⟩ := k
  rw [(write_batchOf db update cache).1]
  split_ifs with hk
  · obtain rfl : v = cache.version := hk
    have hnone : db.internalNodes.lookup ⟨cache.version, path⟩ = none := by
      by_contra hne
      have hle := hbound _ (isSome_iff_ne_none.mpr hne)
      rw [hversion] at hle
      exact not_succ_le_self _ hle
    rw [Database.lookup_putNodes _ cache.internalNodes.nodupKeys, hnone, or_none]
    rfl
  · refine foldlRecOn (motive := fun db' : Database => db'.internalNodes.lookup _ = _) _ _
      rfl fun _ h _ _ => (AList.lookup_insert_ne fun heq => hk ?_).trans h
    exact congrArg InternalNodeKey.version heq

end Write

/-! ## One update -/

/-- What the database finds after an update was written, if it was found during the update. -/
theorem fetch_write (update : Update) (root' : BatchedInternalNode)
    (hversion : cache.version = db.latestVersion + 1) (hdb : cache.dbReader = db)
    (hbound : ∀ k, (db.internalNodes.lookup k).isSome → k.version ≤ db.latestVersion)
    {M : BatchedInternalNode} (hM : cache.fetch k = some M) :
    (startCache (db.write (batchOf hasher update cache)) root').fetch k = some M := by
  rw [fetch_startCache, latestVersion_write update hversion, lookup_write update hversion hbound]
  unfold fetch at hM
  split_ifs at hM with hk hsome
  · -- a cached node
    have hne : cache.internalNodes.entries ≠ [] := by
      intro hnil
      have hlookup : cache.internalNodes.lookup k.path = none := by
        rw [AList.lookup, hnil]
        rfl
      rw [hlookup] at hM
      cases hM
    rw [if_neg hne, hk, if_neg (Nat.ne_of_lt (Nat.lt_succ_self _)), if_pos rfl, hM]
  · -- a stored node that the update did not change
    rw [hdb] at hM
    have hle := hbound k (by rw [hM]; rfl)
    have hlt : ∀ n, (if cache.internalNodes.entries = [] then db.latestVersion
        else cache.version) = n → k.version ≠ n + 1 := by
      rintro n rfl heq
      split_ifs at heq
      · rw [heq] at hle
        exact not_succ_le_self _ hle
      · rw [heq, hversion] at hle
        exact not_succ_le_self _ (le_of_succ_le hle)
    rw [if_neg (hlt _ rfl), if_neg hk, hM]

theorem entries_ne_nil_iff : cache.internalNodes.entries ≠ [] ↔
    ∃ R, (cache.internalNodes.lookup R).isSome := by
  constructor
  · intro hne
    obtain ⟨node, hnode⟩ := exists_mem_of_ne_nil _ hne
    exact ⟨node.1, by rw [(AList.mem_lookup_iff).mpr hnode]; rfl⟩
  · rintro ⟨R, hsome⟩ hnil
    rw [AList.lookup, hnil] at hsome
    cases hsome

theorem UpdateInv.version (h : UpdateInv hasher (startCache db root) T m ins cache T') :
    cache.version = db.latestVersion + 1 :=
  h.keys.same.version

/-- **An update that is written to the database** leaves a stored tree. -/
theorem Stored.write {ins : List Hash} (h : Stored hasher db root T)
    (hinv : UpdateInv hasher (startCache db root) T m ins cache T') (update : Update) :
    Stored hasher (db.write (batchOf hasher update cache)) cache.getRoot T' := by
  have hversion := hinv.version
  have hdb : cache.dbReader = db := hinv.keys.same.dbReader
  have horiginal : cache.originalRoot = root := hinv.keys.same.originalRoot
  have hrep := hinv.rep
  -- the cache is empty, or it holds the root
  have hroot : cache.internalNodes.entries ≠ [] → (cache.internalNodes.lookup []).isSome := by
    intro hne
    obtain ⟨R, hR⟩ := entries_ne_nil_iff.mp hne
    exact hrep.nonempty R hR
  have hroot' : cache.internalNodes.entries = [] → cache.internalNodes.lookup [] = none := by
    intro hnil
    rw [AList.lookup, hnil]
    rfl
  have hlatest : cache.getRoot.version =
      .ok (db.write (batchOf hasher update cache)).latestVersion := by
    rw [hrep.version, latestVersion_write update hversion]
    by_cases hnil : cache.internalNodes.entries = []
    · rw [hroot' hnil, isSome_none, if_neg (by simp), if_pos hnil, hversion]
      rfl
    · rw [hroot hnil, if_pos rfl, if_neg hnil]
  have hle : db.latestVersion ≤ (db.write (batchOf hasher update cache)).latestVersion := by
    rw [latestVersion_write update hversion]
    split_ifs
    · exact le_rfl
    · rw [hversion]
      exact le_succ _
  refine ⟨?_, ⟨⟨succ_pos _, hrep.subtree.inv, fun x => ⟨fun hx => ?_, fun R _ hsome => ?_⟩⟩,
    hrep.full, hrep.inhabited, hrep.hash, ?_, fun R hsome => ?_⟩, fun k hk => ?_, fun a ha => ?_⟩
  · by_cases hnil : cache.internalNodes.entries = []
    · -- nothing was written
      have hold := h.latest
      have hgetRoot : cache.getRoot = root := by
        rw [getRoot, hroot' hnil]
        exact horiginal
      have hsame : (db.write (batchOf hasher update cache)).latestVersion = db.latestVersion := by
        rw [latestVersion_write update hversion, if_pos hnil]
      have hne : (InternalNodeKey.root db.latestVersion).version ≠ cache.version := by
        rw [hversion]
        exact Nat.ne_of_lt (Nat.lt_succ_self _)
      rw [hgetRoot, ← hold, Database.getLatestRoot, Database.getLatestRoot, hsame,
        Database.getInternal, Database.getInternal, lookup_write update hversion h.bound,
        if_neg hne]
    · have hsame : (db.write (batchOf hasher update cache)).latestVersion = cache.version := by
        rw [latestVersion_write update hversion, if_neg hnil]
      have hpos : cache.version ≠ 0 := by
        rw [hversion]
        exact succ_ne_zero _
      obtain ⟨node, hnode⟩ := isSome_iff_exists.mp (hroot hnil)
      rw [Database.getLatestRoot, hsame, if_neg hpos, Database.getInternal,
        lookup_write update hversion h.bound]
      have hlookup : cache.internalNodes.lookup (InternalNodeKey.root cache.version).path =
          some node := hnode
      have hkey : (InternalNodeKey.root cache.version).version = cache.version := rfl
      rw [if_pos hkey, hlookup, getRoot_of_lookup hnode]
  · obtain ⟨c, M, hlinked⟩ := (hrep.subtree.child x).linked hx
    exact ⟨c, M, hlinked.slot, fetch_write update _ hversion hdb h.bound hlinked.fetch,
      hlinked.version, hlinked.pos, hlinked.full, hlinked.rep.mono fun k _ _ M hM =>
        fetch_write update _ hversion hdb h.bound hM⟩
  · cases hsome
  · exact hlatest
  · cases hsome
  · rw [lookup_write update hversion h.bound] at hk
    split_ifs at hk with hv
    · have hne : cache.internalNodes.entries ≠ [] := entries_ne_nil_iff.mpr ⟨_, hk⟩
      rw [latestVersion_write update hversion, if_neg hne, hv]
    · exact (h.bound k hk).trans hle
  · rcases hinv.versions a ha with ha | ⟨hv, hsome⟩
    · exact (h.leaves a ha).trans hle
    · have hne : cache.internalNodes.entries ≠ [] := entries_ne_nil_iff.mpr ⟨_, hsome⟩
      rw [latestVersion_write update hversion, if_neg hne, hv, hversion]
      rfl

theorem Stored.update (h : Stored hasher db root T) (hm : Contents m T) (tree : Tree)
    (hdb : tree.dbReader = db) (update : Update) :
    ∃ cache T', UpdateInv hasher (startCache db root) T (applyUpdate hasher m update)
        (update.updates.map fun keyValue => hasher.hash keyValue.1) cache T' ∧
      tree.updateAndWrite hasher update =
        .ok (⟨db.write (batchOf hasher update cache), cache.getRoot⟩,
          batchOf hasher update cache) := by
  have hlt : ∀ a ∈ T, a.key.version < (startCache db root).version := fun a ha =>
    lt_succ_of_le (h.leaves a ha)
  have hstart : UpdateInv hasher (startCache db root) T m [] (startCache db root) T :=
    { rep := h.rep
      keys := .refl _
      contents := hm
      versions := fun a ha => .inl ha
      leaves := fun _ => ⟨fun l => by simp [startCache], fun a ha => .inl ha⟩
      inserted := fun _ hin => by cases hin }
  obtain ⟨cache, T', hops, hinv⟩ := hstart.update hlt update
  refine ⟨cache, T', hinv, ?_⟩
  have hnew : new root db = .ok (startCache db root) := by
    rw [new, h.version, ok_bind]
    rfl
  obtain ⟨cache₁, hrun₁, hrun₂⟩ := bind_eq_ok.mp hops
  subst hdb
  rw [Tree.updateAndWrite, Tree.update, h.latest, ok_bind]
  dsimp only
  rw [hnew, ok_bind, Tree.updateImpl]
  dsimp only
  rw [hrun₁, ok_bind, hrun₂, ok_bind, ok_bind, batchOf, hinv.version]
  rfl

/-! ## Runs of updates -/

theorem stored_empty (hasher : Hasher) : Stored hasher .empty .empty .empty where
  latest := rfl
  rep := by
    refine ⟨subtree_empty (succ_pos _) (nodeInv_of_noChildren _ _ noChildren_empty)
      fun _ _ _ => rfl, fun h => absurd rfl h, fun h => absurd rfl h, fun _ => rfl, rfl,
      fun R h => ?_⟩
    cases h
  bound k h := by cases h
  leaves a h := h.elim

/-- The map from key hashes to value hashes after a sequence of updates. -/
def finalMap (hasher : Hasher) (updates : List Update) : Hash → Option Hash :=
  updates.foldl (applyUpdate hasher) fun _ => none

/-- **Every sequence of updates** succeeds and leaves a stored tree of the final map. -/
theorem persisted_spec (hasher : Hasher) (updates : List Update) :
    ∃ s T, persisted hasher updates = .ok s ∧
      Stored hasher s.tree.dbReader s.tree.root T ∧ Contents (finalMap hasher updates) T := by
  obtain ⟨s, hrun, T, hstored, hm⟩ :
      ∃ s : Persisted, run (Persisted.update hasher) ⟨⟨.empty, .empty⟩, []⟩ updates = .ok s ∧
        ∃ T, Stored hasher s.tree.dbReader s.tree.root T ∧
          Contents (finalMap hasher updates) T := by
    refine run_invariant (P := fun before (s : Persisted) =>
      ∃ T, Stored hasher s.tree.dbReader s.tree.root T ∧ Contents (finalMap hasher before) T)
      ⟨.empty, stored_empty hasher, fun h v => ?_⟩ ?_ updates
    · simp [finalMap]
    · rintro before s update ⟨T, hstored, hm⟩
      obtain ⟨cache, T', hinv, hupdate⟩ := hstored.update hm s.tree rfl update
      have hstep : Persisted.update hasher s update =
          .ok ⟨⟨s.tree.dbReader.write (batchOf hasher update cache), cache.getRoot⟩,
            s.batches ++ [batchOf hasher update cache]⟩ := by
        rw [Persisted.update, hupdate, ok_bind]
      refine ⟨_, hstep, T', hstored.write hinv update, ?_⟩
      rw [finalMap, foldl_append]
      exact hinv.contents
  exact ⟨s, T, hrun, hstored, hm⟩

/-! ## The root hash -/

theorem RootRep.hash_eq (h : RootRep hasher cache T) (hm : Contents m T) :
    cache.getRoot.hash = Trie.refRoot hasher.parent Hash.placeholder Hash.bits m 255 := by
  by_cases hempty : T = .empty
  · have hnone : ∀ k, m k = none := by
      intro k
      by_contra hne
      obtain ⟨v, hv⟩ := ne_none_iff_exists'.mp hne
      obtain ⟨a, ha, -⟩ := (hm k v).mp hv
      rw [hempty] at ha
      exact ha
    rw [h.hash hempty, Trie.refRoot, if_pos hnone]
  · have hinv := h.subtree.inv
    have hnode : T.IsNode := by
      cases T with
      | empty => exact absurd rfl hempty
      | leaf a => exact absurd trivial hinv.notLeaf
      | node l r => trivial
    rw [hash_eq_slot, (h.full hempty [] (Nat.zero_le 4)).childHash]
    have hlength : ∀ a ∈ T, (Hash.bits a.key.hash).length = 255 + 1 := fun a _ =>
      Hash.length_bits a.key.hash
    have hrepresents : Trie.Represents Hash.bits m (fun a : LeafChild => a.key.hash)
      LeafChild.hash [] T := fun k _ v => hm k v
    have hbits : keyBits = Hash.bits ∘ fun a : LeafChild => a.key.hash := by
      funext a
      rw [keyBits, Function.comp_apply]
    have hplaced : T.Placed keyBits [] := hinv.placed
    rw [hbits] at hplaced
    exact Trie.hash_eq_refRoot hplaced hinv.compact hnode (h.inhabited hempty) hlength hrepresents

/-- **The root hash** is a function of the final map, whatever the updates were. -/
theorem root_hash_eq_refRoot (hasher : Hasher) (updates : List Update) :
    ∃ s, persisted hasher updates = .ok s ∧
      s.tree.getRootHash = Trie.refRoot hasher.parent Hash.placeholder Hash.bits
        (finalMap hasher updates) 255 ∧
      ∀ updates' s', persisted hasher updates' = .ok s' →
        finalMap hasher updates' = finalMap hasher updates →
          s'.tree.getRootHash = s.tree.getRootHash := by
  have hroot : ∀ us, ∃ s, persisted hasher us = .ok s ∧
      s.tree.getRootHash = Trie.refRoot hasher.parent Hash.placeholder Hash.bits
        (finalMap hasher us) 255 := by
    intro us
    obtain ⟨s, T, hs, hstored, hm⟩ := persisted_spec hasher us
    exact ⟨s, hs, hstored.rep.hash_eq hm⟩
  obtain ⟨s, hs, hhash⟩ := hroot updates
  refine ⟨s, hs, hhash, fun updates' s' hs' hmap => ?_⟩
  obtain ⟨s'', hs'', hhash'⟩ := hroot updates'
  rw [hs'', Except.ok.injEq] at hs'
  rw [← hs', hhash', hhash, hmap]

end ConcordBft.SparseMerkle
