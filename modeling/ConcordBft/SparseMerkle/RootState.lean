import ConcordBft.SparseMerkle.TreeRemove

/-!
# One operation of an update

Between two operations of an update the root of the cache represents a trie. An insertion or a
removal replaces one leaf of the trie, and the keys that are no longer reachable from the root
become stale.
-/

namespace ConcordBft.SparseMerkle

open Verif Verif.Exec BatchedInternalNode Walker UpdateCache

variable {hasher : Hasher} {P R : NibblePath} {N N' : BatchedInternalNode} {T T' T'' : LeafTrie}
  {x y : Nibble} {k : List Bool} {o : Option LeafChild} {cache cache' cache'' : UpdateCache}
  {key : Hash} {child : LeafChild}

/-- The keys that are reachable from the root during an update. The empty tree has no root key. -/
def UpdateCache.RootKey (cache : UpdateCache) (k : InternalNodeKey) : Prop :=
  (∃ v, cache.getRoot.version = .ok v ∧ k = ⟨v, []⟩ ∧ v ≠ 0) ∨
    Reach cache.fetch [] cache.getRoot k

/-- The root represents the trie; its version tells whether the update has changed it. -/
structure RootRep (hasher : Hasher) (cache : UpdateCache) (T : LeafTrie) : Prop where
  subtree : Subtree hasher cache [] cache.getRoot T
  full : T ≠ .empty → Full hasher cache.getRoot T
  inhabited : T ≠ .empty → ∃ a, a ∈ T
  hash : T = .empty → cache.getRoot.hash = Hash.placeholder
  version : cache.getRoot.version =
    .ok (if (cache.internalNodes.lookup []).isSome then cache.version else cache.version - 1)
  nonempty : ∀ R, (cache.internalNodes.lookup R).isSome → (cache.internalNodes.lookup []).isSome

/-- An operation replaces the leaf with the bits `k` by `o`. -/
structure RootStep (hasher : Hasher) (k : List Bool) (o : Option LeafChild) (cache : UpdateCache)
    (T : LeafTrie) (cache' : UpdateCache) (T' : LeafTrie) : Prop where
  rep : RootRep hasher cache' T'
  same : cache.Same cache'
  updated : Trie.Updated keyBits k o T T'
  leaves : ∀ l, l ∈ cache'.staleLeafKeys ↔
    l ∈ cache.staleLeafKeys ∨ ∃ a ∈ T, keyBits a = k ∧ a.key = l
  stale : ∀ key, key ∈ cache'.staleInternalKeys ↔ key ∈ cache.staleInternalKeys ∨
    key.version ≠ cache.version ∧ cache.RootKey key ∧ ¬ cache'.RootKey key
  old : ∀ key, key.version ≠ cache.version → cache'.RootKey key → cache.RootKey key
  root : (cache.internalNodes.lookup []).isSome ∨ o ≠ none →
    (cache'.internalNodes.lookup []).isSome

variable {v : Version}

theorem UpdateCache.rootKey_iff (hversion : cache.getRoot.version = .ok v)
    {key : InternalNodeKey} : cache.RootKey key ↔
      (key = ⟨v, []⟩ ∧ v ≠ 0) ∨ Reach cache.fetch [] cache.getRoot key := by
  refine or_congr_left ⟨?_, fun h => ⟨v, hversion, h⟩⟩
  rintro ⟨v', hv', h⟩
  rw [hversion] at hv'
  cases hv'
  exact h

/-- The walker with which an operation starts. -/
def Walker.atRootOf (cache : UpdateCache) (v : Version) : Walker := ⟨v, cache, [], cache.getRoot, []⟩

theorem Walker.new_eq (hversion : cache.getRoot.version = .ok v) :
    new cache = .ok (atRootOf cache v) := by
  rw [new, hversion, ok_bind]
  rfl

/-! ## Back at the root -/

theorem Walker.ascendToRoot_nil {w : Walker} (hpath : w.nibblePath = []) :
    w.ascendToRoot hasher none = .ok { w with cache := w.cached } := by
  have hdepth : w.depth = 0 := by
    rw [depth, hpath]
    rfl
  show (ascendLoop hasher w.depth w >>= fun w => .ok w.markCurrentNodeStale.cacheCurrentNode) = _
  rw [hdepth, ascendLoop, ok_bind, cacheCurrentNode_markCurrentNodeStale]

theorem getRoot_of_lookup (h : cache.internalNodes.lookup [] = some N) : cache.getRoot = N := by
  rw [getRoot, h]

theorem Walker.Done.rootStep {w' : Walker} (hversion : cache.getRoot.version = .ok v)
    (hdone : Done hasher k o (atRootOf cache v) T w' T') (hinhabited : ∃ a, a ∈ T') :
    RootStep hasher k o cache T w'.cached T' := by
  have hmoved := hdone.moved
  have hpath : w'.nibblePath = [] := hmoved.path
  have hsame : cache.Same w'.cached := hmoved.same.trans w'.same_cached
  have hlookup : w'.cached.internalNodes.lookup [] = some w'.currentNode := by
    have h := w'.lookup_cached_self
    rwa [hpath] at h
  have hroot := getRoot_of_lookup hlookup
  have hversion' : w'.cached.getRoot.version = .ok cache.version := by
    rw [hroot]
    exact hmoved.version
  have hpos : cache.version ≠ 0 := by
    have h := hmoved.subtree.pos
    rw [hmoved.same.version] at h
    exact Nat.ne_of_gt h
  have hreach : ∀ key, Reach w'.cached.fetch [] w'.currentNode key ↔
      Reach w'.cache.fetch [] w'.currentNode key := by
    intro key
    rw [← hpath]
    exact reach_cached_below
  have hkey : ∀ key, w'.cached.RootKey key ↔
      key = ⟨cache.version, []⟩ ∨ Reach w'.cache.fetch [] w'.currentNode key := by
    intro key
    rw [rootKey_iff hversion', and_iff_left hpos, hroot, hreach]
  refine ⟨⟨?_, fun _ => ?_, fun _ => hinhabited, fun h => ?_, ?_,
      fun R _ => by rw [hlookup]; rfl⟩, hsame,
    hdone.updated, fun l => ?_, fun key => ?_, fun key hk hrk => ?_, fun _ => by rw [hlookup]; rfl⟩
  · rw [hroot]
    refine ⟨by rw [hsame.version]; exact Nat.pos_of_ne_zero hpos, hmoved.subtree.inv, fun y => ?_⟩
    refine (hmoved.subtree.child y).congr w'.same_cached (sameLink_of_slot rfl) (fun _ => rfl)
      fun R hR => lookup_cached_of_ne ?_
    rintro rfl
    rw [hpath] at hR
    have hlen := hR.length_le
    simp [atRootOf] at hlen
  · rw [hroot]
    exact hmoved.full
  · exact absurd h hmoved.isNode.ne_empty
  · rw [hversion', hlookup, Option.isSome_some, if_pos rfl, hsame.version]
  · have hleaf : w'.cached.staleLeafKeys = w'.cache.staleLeafKeys :=
      staleLeafKeys_marked _ _
    rw [hleaf]
    exact hdone.leaves l
  · rw [rootKey_iff hversion, hkey key]
    exact hmoved.mem_stale w'.leaves_cached id
  · rw [hkey key] at hrk
    rcases hrk with heq | hreach'
    · rw [heq] at hk
      exact absurd rfl hk
    · exact .inr (hmoved.stale.old key hk hreach')

/-! ## Insertion -/

theorem RootRep.insert (h : RootRep hasher cache T) (child : LeafChild)
    (hchild : child.key.version = cache.version) : ∃ cache' T', (do
      let walker ← new cache
      let walker ← walker.insert hasher child
      .ok walker.cache) = .ok cache' ∧
      RootStep hasher (keyBits child) (some child) cache T cache' T' := by
  obtain ⟨v, hversion⟩ : ∃ v, cache.getRoot.version = .ok v := ⟨_, h.version⟩
  obtain ⟨w', T', hw', hdone⟩ := insertFrom_spec
    (w := atRootOf cache v) (n := 64) rfl (by omega) h.subtree hversion List.nil_prefix hchild
  have hinsert : (atRootOf cache v).insert hasher child = w'.ascendToRoot hasher none := hw'
  rw [new_eq hversion, ok_bind, hinsert, ascendToRoot_nil hdone.moved.path, ok_bind]
  exact ⟨_, T', rfl, hdone.rootStep hversion ⟨child, (hdone.updated child).mpr (.inl rfl)⟩⟩

/-! ## Removal -/

theorem RootStep.refl (h : RootRep hasher cache T) (hnone : ∀ a ∈ T, keyBits a ≠ k) :
    RootStep hasher k none cache T cache T where
  rep := h
  same := .refl cache
  updated a := by
    simp only [reduceCtorEq, false_or]
    exact ⟨fun ha => ⟨ha, hnone a ha⟩, fun ha => ha.1⟩
  leaves l := by
    refine (or_iff_left ?_).symm
    rintro ⟨a, ha, heq, -⟩
    exact hnone a ha heq
  stale key := by simp
  old _ _ h := h
  root h := h.resolve_right (fun hne => hne rfl)

def emptyRoot (version : Version) : BatchedInternalNode :=
  BatchedInternalNode.empty.put [] (some (.internal ⟨Hash.placeholder, version⟩))

theorem emptyRoot_slot {version : Version} {q : List Bool} (hq : q ≠ []) :
    (emptyRoot version).slot q = none := by
  rw [emptyRoot, slot_put_ne hq, slot_empty]

theorem emptyRoot_slot_nil (version : Version) :
    (emptyRoot version).slot [] = some (.internal ⟨Hash.placeholder, version⟩) :=
  slot_put_self (q := []) (Nat.zero_le 4) _

theorem Walker.insertEmptyRootAtCurrentVersion_eq (w : Walker) : w.insertEmptyRootAtCurrentVersion =
      { w with cache := w.cache.put [] (emptyRoot w.cache.version) } := by
  have hset := set_idx (N := .empty) (q := []) (Nat.zero_le 4)
    (some (.internal ⟨Hash.placeholder, w.cache.version⟩))
  rw [idx_nil, BatchedInternalNode.set, dif_pos (by omega), Except.ok.injEq] at hset
  rw [insertEmptyRootAtCurrentVersion, emptyRoot, ← hset]
  rfl

theorem not_isNode_of_updated_empty (h : Subtree hasher cache P N T)
    (hupdated : Trie.Updated keyBits k none T .empty) (y : Nibble) : ¬ (T.sub y.bits).IsNode := by
  intro hnode
  obtain ⟨a, ha, b, hb, hne⟩ := Trie.exists_two_of_compact (h.inv.placed.sub y.bits)
    (h.inv.compact.sub y.bits_ne_nil) hnode
  have hkey : ∀ c ∈ T.sub y.bits, keyBits c = k := by
    intro c hc
    by_contra hk
    exact Trie.mem_empty c ((hupdated c).mpr (.inr ⟨Trie.mem_of_mem_sub hc, hk⟩))
  exact hne ((hkey a ha).trans (hkey b hb).symm)

theorem rootRep_emptyRoot (hasher : Hasher) (hpos : 0 < cache.version)
    (hlookup : cache.internalNodes.lookup [] = some (emptyRoot cache.version))
    (hcached : ∀ R x, [x] <+: R → cache.internalNodes.lookup R = none) :
    RootRep hasher cache .empty ∧ ∀ key, cache.RootKey key ↔ key = ⟨cache.version, []⟩ ∨ False := by
  have hroot := getRoot_of_lookup hlookup
  have hversion : cache.getRoot.version = .ok cache.version := by
    rw [hroot]
    exact version_of_slot (emptyRoot_slot_nil _)
  have hlink : ∀ x : Nibble, ∀ c, (emptyRoot cache.version).slot x.bits ≠ some (.internal c) := by
    intro x c
    rw [emptyRoot_slot x.bits_ne_nil]
    simp
  refine ⟨⟨?_, fun h => absurd rfl h, fun h => absurd rfl h, fun _ => ?_, ?_,
      fun R _ => by rw [hlookup]; rfl⟩, fun key => ?_⟩
  · rw [hroot]
    refine subtree_empty hpos ⟨fun q hq _ => ?_, ?_, trivial, fun _ => Trie.compact_empty,
      fun h => h⟩ hcached
    · rw [emptyRoot_slot hq, Trie.sub_empty]
      trivial
    · rw [emptyRoot_slot_nil]
      rfl
  · rw [hroot, hash_eq_slot, emptyRoot_slot_nil]
    rfl
  · rw [hversion, hlookup, Option.isSome_some, if_pos rfl]
  · have hreach : ¬ Reach cache.fetch [] (emptyRoot cache.version) key := by
      rw [reach_iff]
      rintro ⟨x, c, hslot, -⟩
      exact hlink x c hslot
    rw [rootKey_iff hversion, hroot, and_iff_left (Nat.ne_of_gt hpos), iff_false_intro hreach]

theorem RootRep.last {l : LeafKey} (h : RootRep hasher cache T)
    (hversion : cache.getRoot.version = .ok v) (hsafe : N'.safeToRemove = true)
    (hupdated : Trie.Updated keyBits k none T .empty) (hstale : StaleLeaf T k (some l)) :
    ∃ w', removeBatchedInternalNode hasher { atRootOf cache v with
        cache := cache.putStaleLeaf (some l), currentNode := N' } none = .ok w' ∧
      RootStep hasher k none cache T w'.cache .empty := by
  obtain ⟨w, hw⟩ : ∃ w : Walker, w = { atRootOf cache v with
    cache := cache.putStaleLeaf (some l), currentNode := N' } := ⟨_, rfl⟩
  have hpath : w.nibblePath = [] := by rw [hw]; rfl
  have hremove : w.removeCurrentNode = .ok ({ w with cache := w.removed }, none) := by
    have hroot : w.markCurrentNodeStale.atRoot = true := by
      rw [markCurrentNodeStale_eq, atRoot, hpath]
      rfl
    rw [removeCurrentNode]
    show (if w.markCurrentNodeStale.atRoot then _ else _) = _
    rw [if_pos hroot, markCurrentNodeStale_eq]
    rfl
  have hresult : removeBatchedInternalNode hasher w none =
      .ok { w with cache := w.removed.put [] (emptyRoot w.removed.version) } := by
    have hdepth : w.depth = 0 := by rw [depth, hpath]; rfl
    have hsafe' : (w.atRoot && w.currentNode.safeToRemove) = true := by
      rw [atRoot, hpath, hw]
      exact hsafe
    rw [removeBatchedInternalNode, hdepth, unlinkEmptyNodes, ok_bind]
    dsimp only
    rw [if_pos hsafe', hremove, ok_bind, insertEmptyRootAtCurrentVersion_eq]
  rw [← hw]
  refine ⟨_, hresult, ?_⟩
  have hcache : w.cache = cache.putStaleLeaf (some l) := by rw [hw]
  have hv : w.staleVersion = v := by rw [hw]; rfl
  have hsame : cache.Same w.removed := by
    refine (cache.same_putStaleLeaf (some l)).trans ?_
    rw [← hcache]
    exact w.same_removed
  have hsame' : cache.Same (w.removed.put [] (emptyRoot w.removed.version)) :=
    hsame.trans ⟨rfl, rfl, rfl⟩
  have hnot := not_isNode_of_updated_empty h.subtree hupdated
  have hcached : ∀ R x, [x] <+: R →
      (w.removed.put [] (emptyRoot w.removed.version)).internalNodes.lookup R = none := by
    intro R x hR
    have hne : R ≠ [] := by
      rintro rfl
      simp at hR
    rw [lookup_put_of_ne hne, lookup_removed_of_ne (by rwa [hpath]), hcache,
      internalNodes_putStaleLeaf]
    exact h.subtree.not_cached (hnot x) hR
  obtain ⟨hrep, hkey⟩ := rootRep_emptyRoot hasher
    (by rw [hsame'.version]; exact h.subtree.pos) (AList.lookup_insert _) hcached
  have hreach : ∀ key, ¬ Reach cache.fetch [] cache.getRoot key := by
    intro key
    rw [reach_iff]
    rintro ⟨x, c, hslot, -⟩
    exact hnot x (h.subtree.isNode_of_slot hslot)
  have hroot : ((w.removed.put [] (emptyRoot w.removed.version)).internalNodes.lookup []).isSome := by
    rw [UpdateCache.put, AList.lookup_insert]
    rfl
  refine ⟨hrep, hsame', hupdated, fun a => ?_, fun key => ?_, fun key hk hrk => ?_, fun _ => hroot⟩
  · have hleaf : w.removed.staleLeafKeys = w.cache.staleLeafKeys :=
      staleLeafKeys_marked _ _
    show a ∈ w.removed.staleLeafKeys ↔ _
    rw [hleaf, hcache, mem_staleLeafKeys_putStaleLeaf, hstale a]
  · have hmarked : key ∈ w.removed.staleInternalKeys ↔ key ∈ cache.staleInternalKeys ∨
        key = ⟨v, []⟩ ∧ v ≠ 0 ∧ v ≠ cache.version := by
      show key ∈ (w.cache.marked w.staleVersion w.nibblePath).staleInternalKeys ↔ _
      rw [mem_staleInternalKeys_marked, hv, hpath, hcache, staleInternalKeys_putStaleLeaf]
      rfl
    rw [rootKey_iff hversion, hkey key, hsame'.version]
    refine hmarked.trans (mem_stale_marked (fun h => absurd h (hreach key)) False.elim id ?_)
    simp [hreach key]
  · rw [hkey key, or_false] at hrk
    rw [hrk] at hk
    exact absurd hsame'.version hk

theorem RootRep.remove (h : RootRep hasher cache T) (key : Hash) : ∃ cache' T', (do
      let walker ← new cache
      let walker ← walker.remove hasher key
      .ok walker.cache) = .ok cache' ∧ RootStep hasher key.bits none cache T cache' T' := by
  obtain ⟨v, hversion⟩ : ∃ v, cache.getRoot.version = .ok v := ⟨_, h.version⟩
  have hroot : T ≠ .empty → cache.getRoot.slot [] ≠ none := by
    intro hne hnone
    have hfull := h.full hne [] (Nat.zero_le 4)
    rw [hnone] at hfull
    exact hne hfull.eq_empty
  have houtcome : Walker.Outcome hasher key (atRootOf cache v) T
      (removeFrom hasher key 64 (atRootOf cache v)) :=
    removeFrom_spec rfl (by omega) h.subtree hversion hroot List.nil_prefix
      fun hdepth => absurd rfl hdepth
  obtain ⟨e, he⟩ : ∃ e, (atRootOf cache v).remove hasher key = e := ⟨_, rfl⟩
  have he' : removeFrom hasher key 64 (atRootOf cache v) = e := he
  rw [he'] at houtcome
  rw [new_eq hversion, ok_bind, he]
  cases houtcome with
  | notFound hcache hnone =>
    refine ⟨_, T, rfl, ?_⟩
    rw [hcache]
    exact .refl h hnone
  | done done compact inhabited =>
    rw [ascendToRoot_nil done.moved.path, ok_bind]
    exact ⟨_, _, rfl, done.rootStep hversion inhabited⟩
  | emptied hdepth _ _ _ => exact absurd rfl hdepth
  | last _ safe updated stale =>
    obtain ⟨w', hw', hstep⟩ := h.last hversion safe updated stale
    exact ⟨w'.cache, .empty,
      congrArg (fun e : Exec Walker => e >>= fun walker => .ok walker.cache) hw', hstep⟩

end ConcordBft.SparseMerkle
