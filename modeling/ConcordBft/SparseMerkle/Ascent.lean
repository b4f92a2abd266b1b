import ConcordBft.SparseMerkle.Subtree

/-!
# Walking down and up

A walker that has gone down to a child and changed the subtree there goes up again by one step: the
child is cached, its old key becomes stale and the parent links to it. `Moved` is what the walker
has done below its path, and `Moved.ascend` takes it one step up.
-/

namespace ConcordBft.SparseMerkle

open Verif Verif.Exec BatchedInternalNode UpdateCache List Trie

variable {hasher : Hasher} {P R : NibblePath} {N N' M : BatchedInternalNode} {T T' S : LeafTrie}
  {x y : Nibble} {k : InternalNodeKey} {c : InternalChild} {cache cache' : UpdateCache}

theorem Nibble.not_isPrefix_bits (h : y ≠ x) : ¬ x.bits <+: y.bits := by
  intro hpre
  exact h (Nibble.bits_injective (hpre.eq_of_length (by simp))).symm

theorem exists_nibble_of_isPrefix (h : P <+: R) (hne : R ≠ P) : ∃ x, P ++ [x] <+: R := by
  obtain ⟨rest, rfl⟩ := h
  cases rest with
  | nil => exact absurd (append_nil P) hne
  | cons x rest => exact ⟨x, rest, by simp⟩

theorem Reach.path_ne {f : Store} (h : Reach f P N k) : k.path ≠ P := by
  intro heq
  obtain ⟨x, hx⟩ := h.path
  have hlen := hx.length_le
  rw [heq] at hlen
  simp at hlen

theorem not_reach_empty {f : Store} : ¬ Reach f P .empty k := by
  rw [reach_iff]
  rintro ⟨x, c, hslot, -⟩
  rw [slot_empty] at hslot
  cases hslot

namespace Walker

variable {w w' w₁ : Walker} {key : Hash}

/-! ## Single steps -/

theorem appendNibble_eq (hx : key.getNibble w.depth = .ok x) (hdepth : w.depth < 63) :
    w.appendNibble key = .ok { w with nibblePath := w.nibblePath ++ [x] } := by
  have hlen : w.nibblePath.length < Hash.maxNibbles - 1 := hdepth
  rw [appendNibble, hx, ok_bind, NibblePath.append, if_pos hlen, ok_bind]

theorem descend_eq {S : LeafTrie} (hx : key.getNibble w.depth = .ok x) (hdepth : w.depth < 63)
    (hlinked : Linked hasher w.cache.fetch w.nibblePath w.currentNode x S c M) :
    w.descend key c.version = .ok ⟨c.version, w.cache, w.currentNode :: w.stack, M,
      w.nibblePath ++ [x]⟩ := by
  unfold descend
  dsimp only
  rw [appendNibble_eq (w := { w with stack := w.currentNode :: w.stack }) hx hdepth, ok_bind,
    getInternalNode_of_fetch hlinked.fetch, ok_bind, hlinked.version, ok_bind]

theorem markCurrentNodeStale_eq (w : Walker) : w.markCurrentNodeStale =
    { w with cache := w.cache.marked w.staleVersion w.nibblePath } := by
  unfold markCurrentNodeStale marked version
  split_ifs <;> rfl

variable {stack : List BatchedInternalNode}

theorem pop_eq {v : Version} (hpath : w.nibblePath = P ++ [x])
    (hstack : w.stack = N :: stack) (hversion : N.version = .ok v) :
    w.pop = .ok (⟨v, w.cache, stack, N, P⟩, x, w.currentNode.hash) := by
  rw [pop, NibblePath.popBack, hpath, getLast?_concat, dropLast_concat]
  dsimp only
  rw [ok_bind]
  dsimp only
  rw [hstack]
  dsimp only
  rw [hversion, ok_bind]

/-- The cache after the current node has been put into it. -/
def cached (w : Walker) : UpdateCache :=
  (w.cache.marked w.staleVersion w.nibblePath).put w.nibblePath w.currentNode

theorem same_cached (w : Walker) : w.cache.Same w.cached :=
  (same_marked _ _).trans ⟨rfl, rfl, rfl⟩

theorem lookup_cached_self (w : Walker) :
    w.cached.internalNodes.lookup w.nibblePath = some w.currentNode := AList.lookup_insert _

theorem lookup_cached_of_ne (h : R ≠ w.nibblePath) :
    w.cached.internalNodes.lookup R = w.cache.internalNodes.lookup R := by
  rw [cached, lookup_put_of_ne h, internalNodes_marked]

/-- What a walker that leaves its node makes of the cache: the old key of the node is marked, and
only the path of the node is written. -/
structure Leaves (w : Walker) (cache' : UpdateCache) : Prop where
  same : w.cache.Same cache'
  lookup : ∀ R, R ≠ w.nibblePath →
    cache'.internalNodes.lookup R = w.cache.internalNodes.lookup R
  stale : cache'.staleInternalKeys =
    (w.cache.marked w.staleVersion w.nibblePath).staleInternalKeys

theorem leaves_cached (w : Walker) : w.Leaves w.cached :=
  ⟨w.same_cached, fun _ => lookup_cached_of_ne, rfl⟩

theorem cacheCurrentNode_markCurrentNodeStale (w : Walker) :
    w.markCurrentNodeStale.cacheCurrentNode = { w with cache := w.cached } := by
  rw [markCurrentNodeStale_eq]
  rfl

theorem ascendToRoot_eq_of_ascend (hpath : w.nibblePath = P ++ [x]) (hpath' : w'.nibblePath = P)
    (h : w.ascend hasher = .ok w') : w.ascendToRoot hasher none = w'.ascendToRoot hasher none := by
  have hdepth : w.depth = w'.depth + 1 := by
    rw [depth, depth, hpath, hpath', length_append, length_singleton]
  have hloop : ascendLoop hasher w.depth w = ascendLoop hasher w'.depth w' := by
    rw [hdepth, ascendLoop, h, ok_bind]
  show (ascendLoop hasher w.depth w >>= fun w => .ok w.markCurrentNodeStale.cacheCurrentNode) =
    (ascendLoop hasher w'.depth w' >>= fun w => .ok w.markCurrentNodeStale.cacheCurrentNode)
  rw [hloop]

/-! ## Changes below a walker -/

/-- The walker `w'` stands where `w` stood and has changed the subtree there. -/
structure Returned (w w' : Walker) : Prop where
  path : w'.nibblePath = w.nibblePath
  stack : w'.stack = w.stack
  staleVersion : w'.staleVersion = w.staleVersion
  same : w.cache.Same w'.cache
  lookup : ∀ R, (∀ x, ¬ w.nibblePath ++ [x] <+: R) →
    w'.cache.internalNodes.lookup R = w.cache.internalNodes.lookup R
  stale : StaleStep w.cache w'.cache w.nibblePath w.currentNode w'.currentNode

/-- The subtree now represents `T'`. -/
structure Moved (hasher : Hasher) (w w' : Walker) (T' : LeafTrie) : Prop
    extends Returned w w' where
  full : Full hasher w'.currentNode T'
  isNode : T'.IsNode
  version : w'.currentNode.version = .ok w.version
  subtree : Subtree hasher w'.cache w.nibblePath w'.currentNode T'

/-- The child `w₁` of the walker `w`, before a change: a node that exists, with its version, or a
new one. -/
structure Entered (w : Walker) (N : BatchedInternalNode) (x : Nibble) (w₁ : Walker) : Prop where
  path : w₁.nibblePath = w.nibblePath ++ [x]
  stack : w₁.stack = N :: w.stack
  cache : w₁.cache = w.cache
  version : N.version = .ok w.staleVersion
  beside : ∀ y, y ≠ x → N.slot y.bits = w.currentNode.slot y.bits
  reach : ∀ k, ReachAt w.cache.fetch w.nibblePath w.currentNode x k ↔
    (k = ⟨w₁.staleVersion, w.nibblePath ++ [x]⟩ ∧ w₁.staleVersion ≠ 0) ∨
      Reach w.cache.fetch (w.nibblePath ++ [x]) w₁.currentNode k

section Ascend

variable {w₁' : Walker}

theorem fetch_cached_below (hk : w.nibblePath ++ [y] <+: k.path) :
    w.cached.fetch k = w.cache.fetch k := by
  refine w.same_cached.fetch_eq (lookup_cached_of_ne fun heq => ?_)
  have hlen := hk.length_le
  rw [heq] at hlen
  simp at hlen

theorem reach_cached_below :
    Reach w.cached.fetch w.nibblePath N k ↔ Reach w.cache.fetch w.nibblePath N k :=
  ⟨Reach.congr fun _ _ hk => fetch_cached_below hk,
    Reach.congr fun _ _ hk => (fetch_cached_below hk).symm⟩

theorem fetch_cached_self (w : Walker) :
    w.cached.fetch ⟨w.version, w.nibblePath⟩ = some w.currentNode := by
  have hversion : w.version = w.cached.version := w.same_cached.version.symm
  rw [fetch, if_pos hversion]
  exact w.lookup_cached_self

theorem Returned.mem_stale (h : Returned w w') (hleaves : w'.Leaves cache') {new : Prop}
    (hnew : new → k = ⟨w.cache.version, w.nibblePath⟩) :
    k ∈ cache'.staleInternalKeys ↔ k ∈ w.cache.staleInternalKeys ∨ k.version ≠ w.cache.version ∧
      ((k = ⟨w.staleVersion, w.nibblePath⟩ ∧ w.staleVersion ≠ 0) ∨
        Reach w.cache.fetch w.nibblePath w.currentNode k) ∧
      ¬ (new ∨ Reach w'.cache.fetch w.nibblePath w'.currentNode k) := by
  rw [← mem_stale_marked Reach.path_ne Reach.path_ne hnew (h.stale.mem k), hleaves.stale,
    mem_staleInternalKeys_marked, h.staleVersion, h.path, h.same.version]

section

variable (henter : Entered w N x w₁) (hreturned : Returned w₁ w₁')

include henter hreturned

theorem Entered.path_returned : w₁'.nibblePath = w.nibblePath ++ [x] :=
  hreturned.path.trans henter.path

theorem Entered.version_returned : w₁'.version = w.version := by
  rw [Walker.version, hreturned.same.version, henter.cache]
  rfl

variable (hleaves : w₁'.Leaves cache')

include hleaves

theorem Entered.lookup_beside (hR : ¬ w.nibblePath ++ [x] <+: R) :
    cache'.internalNodes.lookup R = w.cache.internalNodes.lookup R := by
  have hne : R ≠ w₁'.nibblePath := by
    rintro rfl
    exact hR (by rw [henter.path_returned hreturned])
  rw [hleaves.lookup R hne, hreturned.lookup R, henter.cache]
  intro z hz
  rw [henter.path] at hz
  exact hR ((prefix_append _ [z]).trans hz)

theorem Entered.same : w.cache.Same cache' := by
  rw [← henter.cache]
  exact hreturned.same.trans hleaves.same

/-- One step up: what is reachable at the nibble of the child is a new key, if the child is linked
again, and what is reachable from the child. -/
theorem Entered.returned {new : InternalNodeKey → Prop}
    (hlink : ∀ y, y ≠ x → SameLink w.currentNode N' y)
    (hnew : ∀ k, new k → k = ⟨w.version, w.nibblePath ++ [x]⟩)
    (hat : ∀ k, ReachAt cache'.fetch w.nibblePath N' x k ↔
      new k ∨ Reach w₁'.cache.fetch (w.nibblePath ++ [x]) w₁'.currentNode k) :
    Returned w ⟨w.staleVersion, cache', w.stack, N', w.nibblePath⟩ where
  path := rfl
  stack := rfl
  staleVersion := rfl
  same := henter.same hreturned hleaves
  lookup R hR := henter.lookup_beside hreturned hleaves (hR x)
  stale := by
    have hnew' : ∀ k, new k → k = ⟨w₁.cache.version, w₁.nibblePath⟩ := by
      rw [henter.path, henter.cache]
      exact hnew
    have hstale := hreturned.stale
    have hmem := fun k => hreturned.mem_stale hleaves (hnew' k)
    simp only [henter.path, henter.cache] at hstale hmem
    refine staleStep_of_at x (fun y hy k => ?_) (fun k => ?_) fun k hk hreach => ?_
    · refine reachAt_congr (hlink y hy) fun k hk => ?_
      exact (henter.same hreturned hleaves).fetch_eq
        (henter.lookup_beside hreturned hleaves fun h => hy (nibble_eq hk h))
    · rw [henter.reach k, hat k]
      exact hmem k
    · rcases (hat k).mp hreach with h | h
      · rw [hnew k h] at hk
        exact absurd rfl hk
      · exact (henter.reach k).mpr (.inr (hstale.old k hk h))

end

variable (henter : Entered w N x w₁) (hmoved : Moved hasher w₁ w₁' S)
  {h : Hash} (hslot : N'.slot x.bits = some (.internal ⟨h, w.version⟩))

include henter hmoved hslot

theorem Entered.reachAt_linked :
    ReachAt w₁'.cached.fetch w.nibblePath N' x k ↔ k = ⟨w.version, w.nibblePath ++ [x]⟩ ∨
      Reach w₁'.cache.fetch (w.nibblePath ++ [x]) w₁'.currentNode k := by
  have hpath := henter.path_returned hmoved.toReturned
  have hversion := henter.version_returned hmoved.toReturned
  have hfetch := w₁'.fetch_cached_self
  rw [hpath, hversion] at hfetch
  rw [reachAt_of_slot hslot hfetch, ← hpath, reach_cached_below]

/-- The nodes after the step up represent the trie with the subtrie of the child. -/
theorem Entered.subtree (hsub : Subtree hasher w.cache w.nibblePath w.currentNode T)
    (hlink : ∀ y, y ≠ x → SameLink w.currentNode N' y)
    (hfull : Full hasher N' (T.replace x.bits S)) (hcompact : S.Compact) :
    Subtree hasher w₁'.cached w.nibblePath N' (T.replace x.bits S) := by
  have hpath := henter.path_returned hmoved.toReturned
  have hsame := henter.same hmoved.toReturned w₁'.leaves_cached
  have hversion := henter.version_returned hmoved.toReturned
  have hplaced := hmoved.subtree.inv.placed
  rw [henter.path, NibblePath.bits_concat] at hplaced
  have hfits : ∀ q' b, q' ≠ [] → x.bits = q' ++ [b] → Trie.Two S (T.sub (q' ++ [!b])) :=
    fun _ _ _ _ => .inr (.inl hmoved.isNode)
  refine ⟨by rw [hsame.version]; exact hsub.pos,
    nodeInv_of_full hfull (isNode_replace x.bits_ne_nil _ _) (hsub.inv.placed.replace hplaced)
      (hsub.inv.compact.replace hcompact x.bits_ne_nil hfits), fun y => ?_⟩
  by_cases hy : y = x
  · subst hy
    have hfetch := w₁'.fetch_cached_self
    rw [hpath, hversion] at hfetch
    refine ⟨fun _ => ⟨_, _, hslot, hfetch, ?_, hsub.pos, ?_, ?_⟩, fun R hR hsome => ?_⟩
    · rw [hmoved.version, Walker.version, henter.cache]
      rfl
    · rw [sub_replace_self]
      exact hmoved.full
    · rw [sub_replace_self]
      have hrep := hmoved.subtree.rep
      rw [henter.path, ← hpath] at hrep
      rw [← hpath]
      exact hrep.mono fun k z hz M hM => (fetch_cached_below hz).trans hM
    · rw [henter.reachAt_linked hmoved hslot, hsame.version]
      by_cases hself : R = w.nibblePath ++ [y]
      · exact .inl (by rw [hself]; rfl)
      · obtain ⟨z, hz⟩ := exists_nibble_of_isPrefix hR hself
        rw [← hpath] at hself
        rw [lookup_cached_of_ne hself] at hsome
        rw [← henter.path] at hz ⊢
        have hat := (hmoved.subtree.child z).cached R hz hsome
        rw [hmoved.same.version, henter.cache] at hat
        exact .inr (reach_iff.mpr ⟨z, hat⟩)
  · have hsubs : (T.replace x.bits S).sub y.bits = T.sub y.bits :=
      sub_replace_of_not_isPrefix (Nibble.not_isPrefix_bits hy)
        (Nibble.not_isPrefix_bits (Ne.symm hy))
    exact (hsub.child y).congr hsame (hlink y hy) (fun _ => hsubs) fun R hR =>
      henter.lookup_beside hmoved.toReturned w₁'.leaves_cached fun h => hy (nibble_eq hR h)

omit hslot in
theorem Moved.ascend (hsub : Subtree hasher w.cache w.nibblePath w.currentNode T)
    (hlinkable : Linkable hasher N T x) (hcompact : S.Compact) :
    ∃ w', w₁'.ascendToRoot hasher none = w'.ascendToRoot hasher none ∧
      Moved hasher w w' (T.replace x.bits S) ∧
      w'.cache.staleLeafKeys = w₁'.cache.staleLeafKeys := by
  have hpath := henter.path_returned hmoved.toReturned
  have hversion := henter.version_returned hmoved.toReturned
  have hhash : w₁'.currentNode.hash = trieHash hasher S := by
    rw [hash_eq_slot]
    exact (hmoved.full [] (Nat.zero_le 4)).childHash
  obtain ⟨N', hN', hfull, hversionN, hslot, hbeside⟩ :=
    linkChild_spec hlinkable hmoved.isNode w.version
  rw [← hhash, ← hversion, Walker.version, ← w₁'.same_cached.version] at hN'
  have hstack := hmoved.stack.trans henter.stack
  have hascend : w₁'.ascend hasher = .ok ⟨w.staleVersion, w₁'.cached, w.stack, N', w.nibblePath⟩ := by
    have hpop := pop_eq (w := { w₁' with cache := w₁'.cached }) hpath hstack henter.version
    rw [Walker.ascend, cacheCurrentNode_markCurrentNodeStale, hpop, hstack, isEmpty_cons,
      Bool.not_false, ensure_true, ok_bind, ok_bind]
    dsimp only [Walker.version]
    rw [hN', ok_bind]
  refine ⟨⟨w.staleVersion, w₁'.cached, w.stack, N', w.nibblePath⟩,
    ascendToRoot_eq_of_ascend hpath rfl hascend, ?_, staleLeafKeys_marked _ _⟩
  have hlink : ∀ y, y ≠ x → SameLink w.currentNode N' y := fun y hy =>
    sameLink_of_slot ((hbeside y hy).trans (henter.beside y hy))
  exact ⟨henter.returned hmoved.toReturned w₁'.leaves_cached hlink (fun _ => id) fun _ =>
      henter.reachAt_linked hmoved hslot, hfull, isNode_replace x.bits_ne_nil _ _, hversionN,
    henter.subtree hmoved hslot hsub hlink hfull hcompact⟩

end Ascend

/-! ## Changes in one node -/

theorem moved_of_sameLink (hsub : Subtree hasher w.cache w.nibblePath w.currentNode T)
    (hsame : w.cache.Same cache') (hnodes : cache'.internalNodes = w.cache.internalNodes)
    (hstale : cache'.staleInternalKeys = w.cache.staleInternalKeys)
    (hlink : ∀ y, SameLink w.currentNode N' y)
    (hsubs : ∀ y : Nibble, (T'.sub y.bits).IsNode → T'.sub y.bits = T.sub y.bits)
    (hfull : Full hasher N' T') (hnode : T'.IsNode) (hversion : N'.version = .ok w.version)
    (hplaced : T'.Placed keyBits w.nibblePath.bits) (hcompact : T'.ChildrenCompact) :
    Moved hasher w { w with cache := cache', currentNode := N' } T' where
  path := rfl
  stack := rfl
  staleVersion := rfl
  same := hsame
  lookup R _ := by
    show cache'.internalNodes.lookup R = _
    rw [hnodes]
  stale := staleStep_of_sameLink hsame hnodes hstale hlink
  full := hfull
  isNode := hnode
  version := hversion
  subtree := by
    refine ⟨?_, nodeInv_of_full hfull hnode hplaced hcompact, fun y => ?_⟩
    · show 0 < cache'.version
      rw [hsame.version]
      exact hsub.pos
    · exact (hsub.child y).congr hsame (hlink y) (hsubs y) fun R _ => by rw [hnodes]

end Walker

namespace BatchedInternalNode

variable {p q : List Bool} {o : Option LeafChild} {version : Version}

/-- The links of other nibbles are kept: the two leaves below them are still there. -/
theorem Changed.isNode_of_not (hinv : NodeInv hasher p N T)
    (h : Changed hasher p q o version N T N' T') (hy : ¬ p ++ y.bits <+: q)
    (hnode : (T.sub y.bits).IsNode) : (T'.sub y.bits).IsNode := by
  have hplaced := hinv.placed.sub y.bits
  obtain ⟨a, ha, b, hb, hne⟩ := exists_two_of_compact hplaced
    (hinv.compact.sub y.bits_ne_nil) hnode
  have hkept : ∀ c ∈ T.sub y.bits, c ∈ T' := by
    intro c hc
    refine (h.updated c).mpr (.inr ⟨mem_of_mem_sub hc, fun heq => hy ?_⟩)
    rw [← heq]
    exact hplaced.prefix_bits hc
  exact isNode_sub_of_two h.placed (hkept a ha) (hkept b hb)
    (fun heq => hne (congrArg keyBits heq)) (hplaced.prefix_bits ha) (hplaced.prefix_bits hb)

theorem Changed.sameLink (hinv : NodeInv hasher p N T) (h : Changed hasher p q o version N T N' T')
    (hy : (T.sub y.bits).IsNode → (T'.sub y.bits).IsNode) : SameLink N N' y := by
  intro c
  constructor
  · intro hslot
    have hnode := (h.full y.bits y.length_bits.le).isInternal hslot
    rwa [← (h.links y hnode).1]
  · intro hslot
    have hnode := (hinv.slots y.bits y.bits_ne_nil y.length_bits.le).isInternal hslot
    rwa [(h.links y (hy hnode)).1]

theorem not_isPrefix_of_ne (hx : p ++ x.bits <+: q) (hy : y ≠ x) : ¬ p ++ y.bits <+: q := by
  intro h
  have heq := (prefix_of_prefix_length_le h hx (by simp)).eq_of_length (by simp)
  exact hy (Nibble.bits_injective (append_cancel_left heq))

end BatchedInternalNode

end ConcordBft.SparseMerkle
