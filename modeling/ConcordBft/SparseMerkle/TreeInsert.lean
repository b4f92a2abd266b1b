import ConcordBft.SparseMerkle.Ascent

/-!
# Insertion into the tree

The walker goes down to the node in which the insertion ends. If the leaf collides with another one
there, a chain of new nodes leads to the first nibble in which the two keys differ. On the way back
every node is linked again.
-/

namespace ConcordBft.SparseMerkle

open Verif Verif.Exec BatchedInternalNode Hash Trie List

variable {hasher : Hasher} {P Q : NibblePath} {N N' M : BatchedInternalNode} {T T' S : LeafTrie}
  {x y : Nibble} {cache : UpdateCache} {child stored : LeafChild} {key : Hash}

/-! ## Paths of a key -/

namespace Hash

theorem getNibble_eq {n : ℕ} (hn : n < 64) : key.getNibble n = .ok (key.nibble ⟨n, hn⟩) :=
  dif_pos hn

theorem exists_nibble (key : Hash) (hpath : P <+: key.nibbles) (hdepth : P.length < 64) :
    ∃ x, key.getNibble P.length = .ok x ∧ P ++ [x] <+: key.nibbles ∧
      P.bits ++ x.bits <+: key.bits := by
  have hx := key.prefix_concat_nibble hpath hdepth
  refine ⟨_, getNibble_eq hdepth, hx, ?_⟩
  rw [← NibblePath.bits_concat]
  exact key.bits_prefix hx

theorem take_succ_nibbles {n : ℕ} (hn : n < 64) :
    key.nibbles.take (n + 1) = key.nibbles.take n ++ [key.nibble ⟨n, hn⟩] := by
  rw [take_add_one, nibbles, List.getElem?_ofFn, dif_pos hn]
  rfl

end Hash

namespace UpdateCache

theorem same_putStaleLeaf (cache : UpdateCache) (l : Option LeafKey) :
    cache.Same (cache.putStaleLeaf l) := by
  cases l <;> exact ⟨rfl, rfl, rfl⟩

@[simp] theorem internalNodes_putStaleLeaf (l : Option LeafKey) :
    (cache.putStaleLeaf l).internalNodes = cache.internalNodes := by
  cases l <;> rfl

@[simp] theorem staleInternalKeys_putStaleLeaf (l : Option LeafKey) :
    (cache.putStaleLeaf l).staleInternalKeys = cache.staleInternalKeys := by
  cases l <;> rfl

theorem mem_staleLeafKeys_putStaleLeaf {l : Option LeafKey} {l' : LeafKey} :
    l' ∈ (cache.putStaleLeaf l).staleLeafKeys ↔ l' ∈ cache.staleLeafKeys ∨ l = some l' := by
  cases l with
  | none => simp [putStaleLeaf]
  | some l => simp [putStaleLeaf, or_comm, eq_comm]

end UpdateCache

namespace Walker

variable {w w' : Walker}

/-- The walker has replaced the leaf with the bits `k` by `o`. -/
structure Done (hasher : Hasher) (k : List Bool) (o : Option LeafChild) (w : Walker) (T : LeafTrie)
    (w' : Walker) (T' : LeafTrie) : Prop where
  moved : Moved hasher w w' T'
  updated : Trie.Updated keyBits k o T T'
  leaves : ∀ l, l ∈ w'.cache.staleLeafKeys ↔
    l ∈ w.cache.staleLeafKeys ∨ ∃ a ∈ T, keyBits a = k ∧ a.key = l

theorem done_of_changed {k : List Bool} {o : Option LeafChild} {staleLeaf : Option LeafKey}
    (hsub : Subtree hasher w.cache w.nibblePath w.currentNode T)
    (hchanged : Changed hasher w.nibblePath.bits k o w.version w.currentNode T N' T')
    (hx : w.nibblePath.bits ++ x.bits <+: k) (hnot : ¬ (T.sub x.bits).IsNode)
    (hstale : StaleLeaf T k staleLeaf) :
    Done hasher k o w T { w with
      cache := w.cache.putStaleLeaf staleLeaf, currentNode := N' } T' where
  moved := by
    refine moved_of_sameLink hsub (w.cache.same_putStaleLeaf staleLeaf)
      (UpdateCache.internalNodes_putStaleLeaf _) (UpdateCache.staleInternalKeys_putStaleLeaf _)
      (fun y => hchanged.sameLink hsub.inv fun hnode => ?_) (fun y hy => (hchanged.links y hy).2)
      hchanged.full hchanged.isNode hchanged.version hchanged.placed hchanged.compact
    by_cases hy : y = x
    · exact absurd (hy ▸ hnode) hnot
    · exact hchanged.isNode_of_not hsub.inv (not_isPrefix_of_ne hx hy) hnode
  updated := hchanged.updated
  leaves l := by rw [UpdateCache.mem_staleLeafKeys_putStaleLeaf, hstale l]

/-! ## New nodes -/

theorem pushEmptyNodes_eq {n d : ℕ} (hpath : w.nibblePath = key.nibbles.take d) (hd : d + n ≤ 63) :
    pushEmptyNodes key n w = .ok { w with
      nibblePath := key.nibbles.take (d + n)
      stack := List.replicate n .empty ++ w.stack } := by
  induction n generalizing w d with
  | zero =>
    rw [pushEmptyNodes, Nat.add_zero, ← hpath]
    rfl
  | succ n ih =>
    have hdepth : w.depth = d := by
      rw [depth, hpath, length_take, length_nibbles]
      omega
    have hlt : d < 64 := by omega
    have hnibble : key.getNibble w.depth = .ok (key.nibble ⟨d, hlt⟩) := by
      rw [hdepth, getNibble_eq hlt]
    rw [pushEmptyNodes, appendNibble_eq hnibble (by omega), ok_bind,
      ih (d := d + 1) (by rw [hpath, take_succ_nibbles hlt]) (by omega)]
    rw [show d + 1 + n = d + (n + 1) by omega, replicate_succ', append_assoc]
    rfl

theorem appendEmptyNodes_eq {n d : ℕ} (hpath : w.nibblePath = key.nibbles.take d) (hn : 0 < n)
    (hd : d + n ≤ 63) : w.appendEmptyNodes key n = .ok ⟨0, w.cache,
      List.replicate (n - 1) .empty ++ w.currentNode :: w.stack, .empty,
      key.nibbles.take (d + n)⟩ := by
  have hlt : d + (n - 1) < 64 := by omega
  have hnext : d + (n - 1) + 1 = d + n := by omega
  unfold appendEmptyNodes
  dsimp only
  rw [pushEmptyNodes_eq (w := { w with stack := w.currentNode :: w.stack }) hpath (by omega),
    ok_bind, appendNibble_eq (x := key.nibble ⟨d + (n - 1), hlt⟩) _ _, ok_bind]
  · rw [← take_succ_nibbles hlt, hnext]
    rfl
  · rw [depth, length_take, length_nibbles, Nat.min_eq_left (by omega), getNibble_eq hlt]
  · rw [depth, length_take, length_nibbles]
    omega

theorem Moved.compact {a b : LeafChild} (h : Moved hasher w w' T') (ha : a ∈ T') (hb : b ∈ T')
    (hne : a ≠ b) : T'.Compact :=
  h.subtree.inv.compact.compact ha hb hne

theorem Moved.ascend_empty {a b : LeafChild} (hpos : 0 < cache.version)
    (hcached : ∀ R x, P ++ [x] <+: R → cache.internalNodes.lookup R = none)
    (xs : List Nibble) (stack : List BatchedInternalNode) {w' : Walker}
    (hmoved : Moved hasher ⟨0, cache, List.replicate xs.length .empty ++ stack, .empty, P ++ xs⟩
      w' S) (ha : a ∈ S) (hb : b ∈ S) (hne : a ≠ b) :
    ∃ w'' S', w'.ascendToRoot hasher none = w''.ascendToRoot hasher none ∧
      Moved hasher ⟨0, cache, stack, .empty, P⟩ w'' S' ∧ (∀ c, c ∈ S' ↔ c ∈ S) ∧
      w''.cache.staleLeafKeys = w'.cache.staleLeafKeys := by
  induction xs generalizing P stack with
  | nil =>
    rw [append_nil, length_nil] at hmoved
    exact ⟨w', S, rfl, hmoved, fun c => Iff.rfl, rfl⟩
  | cons x xs ih =>
    have hcached' : ∀ R y, P ++ [x] ++ [y] <+: R → cache.internalNodes.lookup R = none :=
      fun R y hy => hcached R x ((prefix_append _ [y]).trans hy)
    rw [length_cons, replicate_succ', append_assoc,
      show P ++ x :: xs = P ++ [x] ++ xs by simp] at hmoved
    obtain ⟨w₁, S₁, hw₁, hmoved₁, hmem₁, hleaf₁⟩ := ih hcached' (.empty :: stack) hmoved
    have hcompact := hmoved₁.compact ((hmem₁ a).mpr ha) ((hmem₁ b).mpr hb) hne
    have hsub := subtree_empty hpos (nodeInv_of_noChildren hasher _ noChildren_empty) hcached
    have hentered : Entered ⟨0, cache, stack, .empty, P⟩ .empty x
        ⟨0, cache, .empty :: stack, .empty, P ++ [x]⟩ :=
      ⟨rfl, rfl, rfl, rfl, fun _ _ => rfl, fun k => by simp [not_reach_empty, not_reachAt]⟩
    obtain ⟨w₂, hw₂, hmoved₂, hleaf₂⟩ :=
      Moved.ascend hentered hmoved₁ hsub (linkable_empty hasher x) hcompact
    refine ⟨w₂, _, hw₁.trans hw₂, hmoved₂, fun c => ?_, hleaf₂.trans hleaf₁⟩
    rw [mem_replace_of_not_isNode not_isNode_empty, hmem₁ c]

/-! ## Collisions -/

theorem insert_noChildren (hasher : Hasher) (version : Version) (hnone : NoChildren N)
    (hpath : Q.bits <+: keyBits child) (hdepth : Q.length < 64) :
    ∃ N' T' l, N.insert hasher child Q.length version = .ok (N', .insertComplete l) ∧
      Changed hasher Q.bits (keyBits child) (some child) version N .empty N' T' ∧
      ∀ y : Nibble, ¬ (T'.sub y.bits).IsNode := by
  obtain ⟨x, hx, -, hp⟩ := child.key.hash.exists_nibble
    (NibblePath.isPrefix_of_bits (by rwa [bits_nibbles])) hdepth
  rcases insert_spec (nodeInv_of_noChildren hasher Q.bits hnone) Q.length_bits hdepth hp hx
    (.inl rfl) with ⟨N', T', l, hN', hchanged, -⟩ | ⟨c, -, hslot⟩ | ⟨N', a, -, hcollided⟩
  · refine ⟨N', T', l, hN', hchanged, fun y hy => ?_⟩
    rwa [(hchanged.links y hy).2, sub_empty] at hy
  · exact absurd hslot (not_slot_of_noChildren hnone x c)
  · obtain ⟨r, -, -, hr⟩ := hcollided.position
    rw [sub_empty] at hr
    cases hr

/-- Two leaves that differ in the nibble at the depth of an empty node. -/
theorem insert_both (hasher : Hasher) {version : Version} (hstored : Q.bits <+: keyBits stored)
    (hchild : Q.bits <+: keyBits child) (hdepth : Q.length < 64)
    (hlt : child.key.hash.prefixBits stored.key.hash < 4 * (Q.length + 1))
    (hne : stored.key.hash ≠ child.key.hash) (hversion : child.key.version = version) :
    ∃ N₁ N₂ T₂ result,
      BatchedInternalNode.empty.insert hasher stored Q.length version = .ok (N₁, result) ∧
      N₁.insert hasher child Q.length version = .ok (N₂, .insertComplete none) ∧
      Full hasher N₂ T₂ ∧ T₂.IsNode ∧ N₂.version = .ok version ∧ T₂.Placed keyBits Q.bits ∧
      T₂.ChildrenCompact ∧ (∀ a, a ∈ T₂ ↔ a = child ∨ a = stored) ∧
      ∀ y : Nibble, ¬ (T₂.sub y.bits).IsNode := by
  obtain ⟨N₁, T₁, l₁, hN₁, h₁, hnode₁⟩ :=
    insert_noChildren hasher version noChildren_empty hstored hdepth
  have hmem₁ : ∀ a, a ∈ T₁ ↔ a = stored := by
    intro a
    rw [h₁.updated a]
    simp [eq_comm]
  have hinv₁ := nodeInv_of_full h₁.full h₁.isNode h₁.placed h₁.compact
  -- the second one beside it
  obtain ⟨x₂, hx₂, -, hp₂⟩ := child.key.hash.exists_nibble
    (NibblePath.isPrefix_of_bits (by rwa [bits_nibbles])) hdepth
  rcases insert_spec hinv₁ Q.length_bits hdepth hp₂ hx₂ (.inr hversion) with
    ⟨N₂, T₂, l₂, hN₂, h₂, hstale, -⟩ | ⟨c, -, hslot⟩ | ⟨N₂, a, -, hcollided⟩
  · have hnone : l₂ = none := by
      by_contra hl
      obtain ⟨l, hl⟩ := Option.ne_none_iff_exists'.mp hl
      obtain ⟨a, ha, hk, -⟩ := (hstale l).mp hl
      rw [(hmem₁ a).mp ha] at hk
      exact hne (bits_injective hk)
    refine ⟨N₁, N₂, T₂, _, hN₁, by rw [hN₂, hnone], h₂.full, h₂.isNode, h₂.version, h₂.placed,
      h₂.compact, fun a => ?_, fun y hy => ?_⟩
    · rw [h₂.updated a, hmem₁ a, Option.some.injEq, eq_comm]
      refine or_congr_right (and_iff_left_of_imp ?_)
      rintro rfl heq
      exact hne (bits_injective heq)
    · have h := (h₂.links y hy).2
      rw [h] at hy
      exact hnode₁ y hy
  · exact absurd ((hinv₁.slots _ x₂.bits_ne_nil x₂.length_bits.le).isInternal hslot) (hnode₁ x₂)
  · obtain ⟨r, -, -, hr⟩ := hcollided.position
    obtain rfl := (hmem₁ a).mp (mem_of_mem_sub (by rw [hr]; rfl))
    have hle := (prefix_bits_iff child.key.hash a.key.hash hp₂).mp hcollided.stored_isPrefix
    rw [length_append, Q.length_bits, x₂.length_bits] at hle
    omega

theorem prefixBits_bounds {p : List Bool} (hstored : p <+: keyBits stored)
    (hchild : p <+: keyBits child) (hne : stored.key.hash ≠ child.key.hash) :
    p.length ≤ child.key.hash.prefixBits stored.key.hash ∧
      child.key.hash.prefixBits stored.key.hash < 256 := by
  refine ⟨(prefix_bits_iff _ _ hchild).mp hstored, ?_⟩
  by_contra hle
  have hpre := prefix_bits_of_le child.key.hash stored.key.hash prefix_rfl
    (by rw [length_bits]; omega)
  exact hne (bits_injective (hpre.eq_of_length (by simp)))

section Collision

variable (hsub : Subtree hasher w.cache w.nibblePath w.currentNode T)
  (hcollided : Collided w.nibblePath.bits w.currentNode T x child stored N')

include hcollided in
theorem not_isNode_of_collided : ¬ (T.sub x.bits).IsNode := by
  obtain ⟨r, -, ⟨rest, hrest⟩, hr⟩ := hcollided.position
  rw [← hrest, sub_append, hr]
  exact not_isNode_sub (not_isNode_leaf stored) rest

include hcollided in
theorem entered_of_collided (hversion : w.currentNode.version = .ok w.staleVersion)
    (hsub : Subtree hasher w.cache w.nibblePath w.currentNode T) :
    Entered w N' x ⟨0, w.cache, N' :: w.stack, .empty, w.nibblePath ++ [x]⟩ where
  path := rfl
  stack := rfl
  cache := rfl
  version := (version_congr hcollided.root).trans hversion
  beside y hy := hcollided.same y.bits y.length_bits.le (Nibble.not_isPrefix_bits (Ne.symm hy))
  reach k := by
    have hnot : ¬ ReachAt w.cache.fetch w.nibblePath w.currentNode x k :=
      not_reachAt fun c hc => not_isNode_of_collided hcollided (hsub.isNode_of_slot hc)
    simp [hnot, not_reach_empty]

include hsub hcollided in
theorem updated_of_collided (hx : w.nibblePath.bits ++ x.bits <+: keyBits child)
    (hmem : ∀ a, a ∈ S ↔ a = child ∨ a = stored) :
    Trie.Updated keyBits (keyBits child) (some child) T (T.replace x.bits S) ∧
      ∀ a ∈ T, keyBits a ≠ keyBits child := by
  obtain ⟨r, -, ⟨rest, hrest⟩, hr⟩ := hcollided.position
  have hopen : T.Open r := open_of_sub_ne_empty (by rw [hr]; simp)
  have hk : w.nibblePath.bits ++ r <+: keyBits child := by
    refine ((prefix_append_right_inj _).mpr ?_).trans hx
    exact ⟨rest, hrest⟩
  constructor
  · rw [← hrest, replace_append, hr]
    refine Trie.Updated.replace hsub.inv.placed hopen hk fun a => ?_
    rw [hr, mem_replace_of_not_isNode (not_isNode_leaf stored), hmem a, mem_leaf,
      Option.some.injEq, eq_comm]
    refine or_congr_right (and_iff_left_of_imp ?_).symm
    rintro rfl heq
    exact hcollided.ne (bits_injective heq)
  · intro a ha heq
    have hat := mem_sub hsub.inv.placed hopen ha (by rwa [heq])
    rw [hr] at hat
    obtain rfl : a = stored := hat
    exact hcollided.ne (bits_injective heq)

theorem take_nibbles_eq {n : ℕ} (hpath : P ++ [x] <+: key.nibbles) (hn : 0 < n)
    (hlen : P.length + n ≤ 63) :
    ∃ xs : List Nibble, xs.length = n - 1 ∧ key.nibbles.take (P.length + n) = P ++ [x] ++ xs := by
  have htake := prefix_iff_eq_take.mp hpath
  refine ⟨(key.nibbles.drop (P ++ [x]).length).take (n - 1), ?_, ?_⟩
  · simp only [length_take, length_drop, length_nibbles, length_append, length_singleton]
    omega
  · rw [show P.length + n = (P ++ [x]).length + (n - 1) by
      rw [length_append, length_singleton]; omega, take_add, ← htake]

include hsub hcollided in
theorem handleCollision_spec (hversion : w.currentNode.version = .ok w.staleVersion)
    (hpath : w.nibblePath <+: child.key.hash.nibbles) (hdepth : w.depth < 64)
    (hx : w.nibblePath.bits ++ x.bits <+: keyBits child) (hchild : child.key.version = w.version) :
    ∃ w' T', handleCollision hasher { w with currentNode := N' } stored child =
      w'.ascendToRoot hasher none ∧ Done hasher (keyBits child) (some child) w T w' T' := by
  have hd : w.nibblePath = child.key.hash.nibbles.take w.depth := prefix_iff_eq_take.mp hpath
  have hpathx : w.nibblePath ++ [x] <+: child.key.hash.nibbles := by
    apply NibblePath.isPrefix_of_bits
    rwa [NibblePath.bits_concat, bits_nibbles]
  obtain ⟨hle, hlt⟩ := prefixBits_bounds hcollided.stored_isPrefix hx hcollided.ne
  rw [length_append, NibblePath.length_bits, x.length_bits,
    show w.nibblePath.length = w.depth from rfl] at hle
  obtain ⟨n, hn⟩ : ∃ n, child.key.hash.prefixBits stored.key.hash = n := ⟨_, rfl⟩
  rw [hn] at hle hlt
  obtain ⟨m, hm⟩ : ∃ m, (n - w.depth * 4) / 4 = m := ⟨_, rfl⟩
  -- the walker goes down by `m` new nodes
  have hcommon : child.key.hash.prefixBitsInCommon stored.key.hash w.depth =
      .ok (n - w.depth * 4) := by
    rw [prefixBitsInCommon, if_pos hdepth, hn, if_pos (by omega)]
  have happend := appendEmptyNodes_eq (w := { w with currentNode := N' }) (n := m) hd (by omega)
    (by omega)
  obtain ⟨Q, hQ⟩ : ∃ Q : NibblePath, child.key.hash.nibbles.take (w.depth + m) = Q := ⟨_, rfl⟩
  have hQlen : Q.length = w.depth + m := by
    rw [← hQ, length_take, length_nibbles]
    omega
  obtain ⟨xs, hxs, hQxs⟩ := take_nibbles_eq (n := m) hpathx (by omega)
    (show w.depth + m ≤ 63 by omega)
  rw [show w.nibblePath.length + m = w.depth + m from rfl, hQ] at hQxs
  rw [hQ] at happend
  have hQchild : Q.bits <+: keyBits child := by
    rw [← hQ]
    exact bits_prefix _ (List.take_prefix _ _)
  have hQstored : Q.bits <+: keyBits stored := by
    rw [keyBits, prefix_bits_iff child.key.hash stored.key.hash hQchild, hn, Q.length_bits]
    omega
  obtain ⟨N₁, N₂, T₂, result, hN₁, hN₂, hfull, hnode, hversion₂, hplaced, hcompact, hmem, hnot⟩ :=
    insert_both hasher hQstored hQchild (by omega) (by rw [hn]; omega) hcollided.ne hchild
  have hne : child ≠ stored := fun heq => hcollided.ne (by rw [heq])
  -- nothing is cached where the new nodes are
  have hcached : ∀ R y, w.nibblePath ++ [x] ++ [y] <+: R →
      w.cache.internalNodes.lookup R = none := fun R y hy =>
    hsub.not_cached (not_isNode_of_collided hcollided) ((prefix_append _ [y]).trans hy)
  have hmoved : Moved hasher ⟨0, w.cache, List.replicate xs.length .empty ++ N' :: w.stack, .empty,
      w.nibblePath ++ [x] ++ xs⟩ ⟨0, w.cache, List.replicate xs.length .empty ++ N' :: w.stack, N₂,
      w.nibblePath ++ [x] ++ xs⟩ T₂ := by
    rw [← hQxs]
    refine moved_of_sameLink (w := ⟨0, w.cache, _, .empty, Q⟩)
      (subtree_empty hsub.pos (nodeInv_of_noChildren _ _ noChildren_empty) fun R y hy => ?_)
      (.refl w.cache) rfl rfl (fun y c => ?_) (fun y hy => absurd hy (hnot y)) hfull hnode hversion₂
      hplaced hcompact
    · rw [hQxs] at hy
      refine hsub.not_cached (not_isNode_of_collided hcollided) (List.IsPrefix.trans ?_ hy)
      rw [append_assoc _ xs]
      exact prefix_append _ _
    · have hslot : N₂.slot y.bits ≠ some (.internal c) := fun h =>
        hnot y ((hfull y.bits y.length_bits.le).isInternal h)
      simp [hslot]
  obtain ⟨w₁, S, hw₁, hmoved₁, hmem₁, hleaf₁⟩ := Moved.ascend_empty hsub.pos hcached xs
    (N' :: w.stack) hmoved ((hmem child).mpr (.inl rfl)) ((hmem stored).mpr (.inr rfl)) hne
  have hmemS : ∀ a, a ∈ S ↔ a = child ∨ a = stored := fun a => (hmem₁ a).trans (hmem a)
  obtain ⟨w₂, hw₂, hmoved₂, hleaf₂⟩ := Moved.ascend
    (entered_of_collided hcollided hversion hsub) hmoved₁ hsub (hcollided.linkable hsub.inv)
    (hmoved₁.compact ((hmemS child).mpr (.inl rfl)) ((hmemS stored).mpr (.inr rfl)) hne)
  obtain ⟨hupdated, hother⟩ := updated_of_collided hsub hcollided hx hmemS
  refine ⟨w₂, _, ?_, hmoved₂, hupdated, fun l => ?_⟩
  · rw [handleCollision, show ({ w with currentNode := N' } : Walker).depth = w.depth from rfl,
      hcommon, ok_bind, hm, happend, ok_bind]
    dsimp only [depth, Walker.version] at hN₁ hN₂ ⊢
    rw [hN₁, ok_bind]
    dsimp only
    rw [hN₂, ok_bind]
    dsimp only [insertComplete]
    rw [← hxs, hQxs, hw₁, hw₂]
  · rw [hleaf₂, hleaf₁]
    refine (or_iff_left ?_).symm
    rintro ⟨a, ha, heq, -⟩
    exact hother a ha heq

end Collision

/-! ## The way down -/

/-- A link never leads deeper than the nibbles of a key: two keys differ below it. -/
theorem depth_lt_of_isNode (hsub : Subtree hasher w.cache w.nibblePath w.currentNode T)
    (hnode : (T.sub x.bits).IsNode) : w.depth + 1 < 64 := by
  have hplaced := hsub.inv.placed.sub x.bits
  obtain ⟨a, ha, b, hb, hne⟩ := exists_two_of_compact hplaced
    (hsub.inv.compact.sub x.bits_ne_nil) hnode
  have hpa := hplaced.prefix_bits ha
  have hpb := hplaced.prefix_bits hb
  have hlen := hpa.length_le
  rw [length_append, NibblePath.length_bits, x.length_bits, keyBits, length_bits] at hlen
  by_contra hle
  have hdepth : w.nibblePath.length = w.depth := rfl
  have hfull : 4 * w.nibblePath.length + 4 = 256 := by omega
  have heq : ∀ c : LeafChild, w.nibblePath.bits ++ x.bits <+: keyBits c →
      w.nibblePath.bits ++ x.bits = keyBits c := by
    intro c hc
    refine hc.eq_of_length ?_
    rw [length_append, NibblePath.length_bits, x.length_bits, keyBits, length_bits, hfull]
  exact hne ((heq a hpa).symm.trans (heq b hpb))

theorem entered_of_linked (hversion : w.currentNode.version = .ok w.staleVersion)
    {c : InternalChild} (hlinked : Linked hasher w.cache.fetch w.nibblePath w.currentNode x S c M) :
    Entered w w.currentNode x ⟨c.version, w.cache, w.currentNode :: w.stack, M,
      w.nibblePath ++ [x]⟩ where
  path := rfl
  stack := rfl
  cache := rfl
  version := hversion
  beside _ _ := rfl
  reach k := by
    rw [reachAt_of_slot hlinked.slot hlinked.fetch, and_iff_left (Nat.ne_of_gt hlinked.pos)]

section Lift

variable {k : List Bool} {o : Option LeafChild} {w₁ w₁' : Walker}
  (hsub : Subtree hasher w.cache w.nibblePath w.currentNode T)
  (hnode : (T.sub x.bits).IsNode) (hx : w.nibblePath.bits ++ x.bits <+: k)
  (hleaf : w'.cache.staleLeafKeys = w₁'.cache.staleLeafKeys)

include hsub hnode hx hleaf

theorem leaves_lift (h : ∀ l, l ∈ w₁'.cache.staleLeafKeys ↔ l ∈ w₁.cache.staleLeafKeys ∨
      ∃ a ∈ T.sub x.bits, keyBits a = k ∧ a.key = l) (hcache : w₁.cache = w.cache) (l : LeafKey) :
    l ∈ w'.cache.staleLeafKeys ↔
      l ∈ w.cache.staleLeafKeys ∨ ∃ a ∈ T, keyBits a = k ∧ a.key = l := by
  rw [hleaf, h l, hcache]
  refine or_congr_right ⟨?_, ?_⟩
  · rintro ⟨a, ha, hk, hl⟩
    exact ⟨a, mem_of_mem_sub ha, hk, hl⟩
  · rintro ⟨a, ha, hk, hl⟩
    exact ⟨a, mem_sub hsub.inv.placed (open_of_isNode hnode) ha (by rwa [hk]), hk, hl⟩

theorem Done.lift (hdone : Done hasher k o w₁ (T.sub x.bits) w₁' S)
    (hcache : w₁.cache = w.cache) (hmoved : Moved hasher w w' (T.replace x.bits S)) :
    Done hasher k o w T w' (T.replace x.bits S) where
  moved := hmoved
  updated := Trie.Updated.replace hsub.inv.placed (open_of_isNode hnode) hx hdone.updated
  leaves := leaves_lift hsub hnode hx hleaf hdone.leaves hcache

end Lift

theorem exists_two_of_updated {p : List Bool} (hplaced : T.Placed keyBits p) (hcompact : T.Compact)
    (hnode : T.IsNode) (h : Trie.Updated keyBits (keyBits child) (some child) T T') :
    ∃ b ∈ T', b ≠ child := by
  obtain ⟨a, ha, b, hb, hne⟩ := exists_two_of_compact hplaced hcompact hnode
  by_cases hk : keyBits a = keyBits child
  · refine ⟨b, (h b).mpr (.inr ⟨hb, fun heq => hne (hk.trans heq.symm)⟩), ?_⟩
    rintro rfl
    exact hne hk
  · refine ⟨a, (h a).mpr (.inr ⟨ha, hk⟩), ?_⟩
    rintro rfl
    exact hk rfl

/-- **Insertion.** The walker comes back to the node where it started, having replaced the leaf of
the key; what is left is the way up to the root. -/
theorem insertFrom_spec {n : ℕ} (hn : w.depth + n = 64) (hpos : 0 < n)
    (hsub : Subtree hasher w.cache w.nibblePath w.currentNode T)
    (hversion : w.currentNode.version = .ok w.staleVersion)
    (hpath : w.nibblePath <+: child.key.hash.nibbles) (hchild : child.key.version = w.version) :
    ∃ w' T', insertFrom hasher child n w = w'.ascendToRoot hasher none ∧
      Done hasher (keyBits child) (some child) w T w' T' := by
  induction n generalizing w T with
  | zero => exact absurd hpos (lt_irrefl 0)
  | succ n ih =>
    have hdepth : w.depth < 64 := by omega
    obtain ⟨x, hget, hpathx, hx⟩ := exists_nibble _ hpath hdepth
    have hlen : w.nibblePath.bits.length = 4 * w.depth := NibblePath.length_bits _
    rw [insertFrom]
    rcases insert_spec hsub.inv hlen hdepth hx hget (.inr hchild) with
      ⟨N', T', staleLeaf, hN', hchanged, hstale, hnot⟩ | ⟨c, hN', hslot⟩ |
      ⟨N', stored, hN', hcollided⟩
    · rw [hN', ok_bind]
      exact ⟨_, T', rfl, done_of_changed hsub hchanged hx hnot hstale⟩
    · have hnode := hsub.isNode_of_slot hslot
      obtain ⟨M, hlinked, hsub₁⟩ := hsub.linked hslot
      have hdepth₁ := depth_lt_of_isNode hsub hnode
      rw [hN', ok_bind]
      dsimp only
      rw [descend_eq hget (by omega) hlinked, ok_bind]
      obtain ⟨w₁', S, hw₁', hdone⟩ := ih
        (w := ⟨c.version, w.cache, w.currentNode :: w.stack, M, w.nibblePath ++ [x]⟩)
        (by rw [depth, length_append, length_singleton]; unfold depth at hn; omega)
        (by omega) hsub₁ hlinked.version hpathx hchild
      have hcompact := hsub.inv.compact.sub x.bits_ne_nil
      obtain ⟨b, hb, hne⟩ := exists_two_of_updated (hsub.inv.placed.sub x.bits) hcompact hnode
        hdone.updated
      obtain ⟨w', hw', hmoved, hleaf⟩ := Moved.ascend
        (entered_of_linked hversion hlinked) hdone.moved hsub (hsub.inv.linkable hnode)
        (hdone.moved.compact hb ((hdone.updated child).mpr (.inl rfl)) hne)
      exact ⟨w', _, hw₁'.trans hw', hdone.lift hsub hnode hx hleaf rfl hmoved⟩
    · rw [hN', ok_bind]
      exact handleCollision_spec hsub hcollided hversion hpath hdepth hx hchild

end Walker

end ConcordBft.SparseMerkle
