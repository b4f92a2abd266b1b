import ConcordBft.SparseMerkle.TreeRep

/-!
# The subtree below a walker

What holds of the node at which a walker stands, while an update is going on: the node and the nodes
below it represent a trie, and every cached node below it is reachable. An operation changes the
links of one nibble; the other nibbles keep what they had.
-/

namespace ConcordBft.SparseMerkle

open Verif Verif.Exec BatchedInternalNode

variable {hasher : Hasher} {P R : NibblePath} {N N' M : BatchedInternalNode} {T T' S : LeafTrie}
  {x y : Nibble} {k : InternalNodeKey} {c : InternalChild} {cache cache' : UpdateCache}

/-! ## The nodes of an update -/

namespace UpdateCache

/-- The node that a link leads to during an update: links of the version of the update lead to
cached nodes, older ones to stored nodes whose path is not cached. -/
def fetch (cache : UpdateCache) : Store := fun k =>
  if k.version = cache.version then cache.internalNodes.lookup k.path
  else if (cache.internalNodes.lookup k.path).isSome then none
  else cache.dbReader.internalNodes.lookup k

theorem getInternalNode_of_fetch (h : cache.fetch k = some M) :
    cache.getInternalNode k = .ok M := by
  unfold fetch at h
  unfold getInternalNode
  split_ifs at h with hversion hsome
  · rw [h]
  · rw [Option.not_isSome_iff_eq_none.mp hsome]
    dsimp only
    rw [Database.getInternal, h]

/-- The caches of one update. -/
structure Same (cache cache' : UpdateCache) : Prop where
  version : cache'.version = cache.version
  dbReader : cache'.dbReader = cache.dbReader
  originalRoot : cache'.originalRoot = cache.originalRoot

theorem Same.refl (cache : UpdateCache) : Same cache cache := ⟨rfl, rfl, rfl⟩

theorem Same.trans {cache'' : UpdateCache} (h : Same cache cache') (h' : Same cache' cache'') :
    Same cache cache'' :=
  ⟨h'.version.trans h.version, h'.dbReader.trans h.dbReader, h'.originalRoot.trans h.originalRoot⟩

theorem Same.fetch_eq (h : Same cache cache')
    (hlookup : cache'.internalNodes.lookup k.path = cache.internalNodes.lookup k.path) :
    cache'.fetch k = cache.fetch k := by
  unfold fetch
  rw [hlookup, h.version, h.dbReader]

/-- The key of a node that is changed becomes stale, unless the update has already changed it. -/
def marked (cache : UpdateCache) (version : Version) (path : NibblePath) : UpdateCache :=
  if version ≠ 0 ∧ version ≠ cache.version then cache.putStale ⟨version, path⟩ else cache

theorem same_marked (version : Version) (path : NibblePath) :
    Same cache (cache.marked version path) := by
  unfold marked
  split_ifs <;> exact ⟨rfl, rfl, rfl⟩

@[simp] theorem internalNodes_marked (version : Version) (path : NibblePath) :
    (cache.marked version path).internalNodes = cache.internalNodes := by
  unfold marked
  split_ifs <;> rfl

@[simp] theorem staleLeafKeys_marked (version : Version) (path : NibblePath) :
    (cache.marked version path).staleLeafKeys = cache.staleLeafKeys := by
  unfold marked
  split_ifs <;> rfl

theorem mem_staleInternalKeys_marked {version : Version} {path : NibblePath} :
    k ∈ (cache.marked version path).staleInternalKeys ↔
      k ∈ cache.staleInternalKeys ∨ k = ⟨version, path⟩ ∧ version ≠ 0 ∧ version ≠ cache.version := by
  unfold marked
  split_ifs with h
  · simp [putStale, h, or_comm]
  · simp [h]

theorem lookup_put_of_ne (h : R ≠ P) :
    (cache.put P M).internalNodes.lookup R = cache.internalNodes.lookup R :=
  AList.lookup_insert_ne h

end UpdateCache

/-! ## Subtrees -/

/-- The child of a nibble: a link of the trie leads to a node that represents it, and the cached
nodes at and below the child are reachable. -/
structure ChildRep (hasher : Hasher) (cache : UpdateCache) (P : NibblePath)
    (N : BatchedInternalNode) (T : LeafTrie) (x : Nibble) : Prop where
  linked : (T.sub x.bits).IsNode → ∃ c M, Linked hasher cache.fetch P N x (T.sub x.bits) c M
  cached : ∀ R, P ++ [x] <+: R → (cache.internalNodes.lookup R).isSome →
    ReachAt cache.fetch P N x ⟨cache.version, R⟩

/-- A node, with the nodes below it, that represents a trie during an update. -/
structure Subtree (hasher : Hasher) (cache : UpdateCache) (P : NibblePath)
    (N : BatchedInternalNode) (T : LeafTrie) : Prop where
  pos : 0 < cache.version
  inv : NodeInv hasher P.bits N T
  child : ∀ x, ChildRep hasher cache P N T x

theorem Subtree.rep (h : Subtree hasher cache P N T) : NodeRep hasher cache.fetch P N T :=
  nodeRep_of_linked fun x => (h.child x).linked

theorem ChildRep.congr (h : ChildRep hasher cache P N T x) (hsame : cache.Same cache')
    (hlink : SameLink N N' x) (hsub : (T'.sub x.bits).IsNode → T'.sub x.bits = T.sub x.bits)
    (hlookup : ∀ R, P ++ [x] <+: R → cache'.internalNodes.lookup R = cache.internalNodes.lookup R) :
    ChildRep hasher cache' P N' T' x where
  linked hx := by
    have heq := hsub hx
    rw [heq] at hx ⊢
    obtain ⟨c, M, hlinked⟩ := h.linked hx
    exact ⟨c, M, hlinked.congr hlink fun k hk => hsame.fetch_eq (hlookup k.path hk)⟩
  cached R hR hsome := by
    rw [hlookup R hR] at hsome
    rw [reachAt_congr hlink fun k hk => hsame.fetch_eq (hlookup k.path hk), hsame.version]
    exact h.cached R hR hsome

theorem Subtree.isNode_of_slot (h : Subtree hasher cache P N T)
    (hslot : N.slot x.bits = some (.internal c)) : (T.sub x.bits).IsNode :=
  (h.inv.slots x.bits x.bits_ne_nil x.length_bits.le).isInternal hslot

theorem nodeInv_of_full {p : List Bool} (hfull : Full hasher M S) (hnode : S.IsNode)
    (hplaced : S.Placed keyBits p) (hcompact : S.ChildrenCompact) : NodeInv hasher p M S where
  slots := hfull.slots
  root := (hfull [] (Nat.zero_le 4)).isLeaf_of_isNode hnode
  placed := hplaced
  compact := hcompact
  notLeaf := hnode.not_isLeaf

theorem Subtree.linked (h : Subtree hasher cache P N T)
    (hslot : N.slot x.bits = some (.internal c)) :
    ∃ M, Linked hasher cache.fetch P N x (T.sub x.bits) c M ∧
      Subtree hasher cache (P ++ [x]) M (T.sub x.bits) := by
  have hx := h.isNode_of_slot hslot
  obtain ⟨c', M, hlinked⟩ := (h.child x).linked hx
  obtain rfl := hlinked.eq_of_slot hslot
  refine ⟨M, hlinked, h.pos, ?_, fun y => ⟨fun hy => hlinked.rep.linked hy, ?_⟩⟩
  · refine nodeInv_of_full hlinked.full hx ?_ (h.inv.compact.sub x.bits_ne_nil).childrenCompact
    rw [NibblePath.bits_concat]
    exact h.inv.placed.sub x.bits
  · intro R hR hsome
    have hat := (h.child x).cached R ((List.prefix_append _ [y]).trans hR) hsome
    rw [reachAt_of_slot hlinked.slot hlinked.fetch] at hat
    rcases hat with heq | hreach
    · have hpath : R = P ++ [x] := congrArg InternalNodeKey.path heq
      have hlen := hR.length_le
      rw [hpath] at hlen
      simp at hlen
    · obtain ⟨z, hz⟩ := reach_iff.mp hreach
      obtain rfl := nibble_eq hz.path hR
      exact hz

theorem Subtree.not_cached (h : Subtree hasher cache P N T) (hx : ¬ (T.sub x.bits).IsNode)
    (hR : P ++ [x] <+: R) : cache.internalNodes.lookup R = none := by
  by_contra hne
  obtain ⟨c, hslot, -⟩ := (h.child x).cached R hR (Option.isSome_iff_ne_none.mpr hne)
  exact hx (h.isNode_of_slot hslot)

theorem not_slot_of_noChildren (h : NoChildren N) (x : Nibble) (c : InternalChild) :
    N.slot x.bits ≠ some (.internal c) := by
  rw [h x.bits x.length_bits.le]
  simp

theorem nodeInv_of_noChildren (hasher : Hasher) (p : List Bool) (h : NoChildren N) :
    NodeInv hasher p N .empty where
  slots q _ hq := by
    rw [h q hq, Trie.sub_empty]
    trivial
  root := by
    rw [h [] (Nat.zero_le 4)]
    rfl
  placed := trivial
  compact _ := Trie.compact_empty
  notLeaf h := h

theorem noChildren_empty : NoChildren .empty := fun q _ => slot_empty q

theorem subtree_empty (hpos : 0 < cache.version) (hinv : NodeInv hasher P.bits N .empty)
    (hcached : ∀ R x, P ++ [x] <+: R → cache.internalNodes.lookup R = none) :
    Subtree hasher cache P N .empty where
  pos := hpos
  inv := hinv
  child x := by
    refine ⟨fun hx => ?_, fun R hR hsome => ?_⟩
    · rw [Trie.sub_empty] at hx
      exact hx.elim
    · rw [hcached R x hR] at hsome
      cases hsome

/-! ## Stale keys -/

/-- The keys that an operation below `P` makes stale: those that were reachable from the node and
are no longer. -/
structure StaleStep (cache cache' : UpdateCache) (P : NibblePath) (N N' : BatchedInternalNode) :
    Prop where
  mem : ∀ k, k ∈ cache'.staleInternalKeys ↔ k ∈ cache.staleInternalKeys ∨
    k.version ≠ cache.version ∧ Reach cache.fetch P N k ∧ ¬ Reach cache'.fetch P N' k
  old : ∀ k, k.version ≠ cache.version → Reach cache'.fetch P N' k → Reach cache.fetch P N k

/-- If the links of one nibble change, the keys at this nibble decide. -/
theorem staleStep_of_at (x : Nibble)
    (hbeside : ∀ y, y ≠ x → ∀ k, ReachAt cache'.fetch P N' y k ↔ ReachAt cache.fetch P N y k)
    (hmem : ∀ k, k ∈ cache'.staleInternalKeys ↔ k ∈ cache.staleInternalKeys ∨
      k.version ≠ cache.version ∧ ReachAt cache.fetch P N x k ∧ ¬ ReachAt cache'.fetch P N' x k)
    (hold : ∀ k, k.version ≠ cache.version → ReachAt cache'.fetch P N' x k →
      ReachAt cache.fetch P N x k) : StaleStep cache cache' P N N' where
  mem k := by
    rw [hmem k, reach_iff, reach_iff]
    refine or_congr_right (and_congr_right fun _ => ?_)
    constructor
    · rintro ⟨hx, hnot⟩
      refine ⟨⟨x, hx⟩, ?_⟩
      rintro ⟨y, hy⟩
      by_cases hyx : y = x
      · exact hnot (hyx ▸ hy)
      · exact hyx (nibble_eq hy.path hx.path)
    · rintro ⟨⟨y, hy⟩, hnot⟩
      by_cases hyx : y = x
      · subst hyx
        exact ⟨hy, fun h => hnot ⟨y, h⟩⟩
      · exact absurd ⟨y, (hbeside y hyx k).mpr hy⟩ hnot
  old k hk hreach := by
    obtain ⟨y, hy⟩ := reach_iff.mp hreach
    by_cases hyx : y = x
    · subst hyx
      exact reach_iff.mpr ⟨y, hold k hk hy⟩
    · exact reach_iff.mpr ⟨y, (hbeside y hyx k).mp hy⟩

/-- A node at the path `P` is removed or replaced by one of the version of the update, and its old
key is marked: the stale keys at and below the path. -/
theorem mem_stale_marked {s : Finset InternalNodeKey} {v n : Version} {before after : Prop}
    {stale₁ new : Prop} (hbefore : before → k.path ≠ P) (hafter : after → k.path ≠ P)
    (hnew : new → k = ⟨n, P⟩) (hstale : stale₁ ↔ k ∈ s ∨ k.version ≠ n ∧ before ∧ ¬ after) :
    (stale₁ ∨ k = ⟨v, P⟩ ∧ v ≠ 0 ∧ v ≠ n) ↔
      k ∈ s ∨ k.version ≠ n ∧ ((k = ⟨v, P⟩ ∧ v ≠ 0) ∨ before) ∧ ¬ (new ∨ after) := by
  rw [hstale]
  constructor
  · rintro ((hmem | ⟨hk, hb, ha⟩) | ⟨hk, h0, hn⟩)
    · exact .inl hmem
    · refine .inr ⟨hk, .inr hb, ?_⟩
      rintro (h | h)
      · exact hbefore hb (by rw [hnew h])
      · exact ha h
    · refine .inr ⟨by rw [hk]; exact hn, .inl ⟨hk, h0⟩, ?_⟩
      rintro (h | h)
      · exact hn (congrArg InternalNodeKey.version (hk.symm.trans (hnew h)))
      · exact hafter h (by rw [hk])
  · rintro (hmem | ⟨hk, ⟨heq, h0⟩ | hb, ha⟩)
    · exact .inl (.inl hmem)
    · refine .inr ⟨heq, h0, ?_⟩
      rw [heq] at hk
      exact hk
    · exact .inl (.inr ⟨hk, hb, fun h => ha (.inr h)⟩)

theorem staleStep_of_sameLink (hsame : cache.Same cache')
    (hnodes : cache'.internalNodes = cache.internalNodes)
    (hstale : cache'.staleInternalKeys = cache.staleInternalKeys)
    (hlink : ∀ x, SameLink N N' x) : StaleStep cache cache' P N N' := by
  have hat : ∀ y k, ReachAt cache'.fetch P N' y k ↔ ReachAt cache.fetch P N y k := fun y k =>
    reachAt_congr (hlink y) fun k _ => hsame.fetch_eq (by rw [hnodes])
  refine staleStep_of_at 0 (fun y _ k => hat y k) (fun k => ?_) fun k _ h => (hat 0 k).mp h
  rw [hstale, hat 0 k]
  simp

end ConcordBft.SparseMerkle
