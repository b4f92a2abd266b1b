import ConcordBft.SparseMerkle.Slots

/-!
# Insertion into one node

A leaf is inserted into the node that represents a trie. Either the node then represents the trie
with the leaf, or the leaf belongs into a node below: one that exists, or a new one if another leaf
has the same four bits.
-/

namespace ConcordBft.SparseMerkle

open Verif Verif.Exec Trie List Hash

namespace BatchedInternalNode

variable {hasher : Hasher} {p k q : List Bool} {N N₁ : BatchedInternalNode} {T s : LeafTrie}
  {o : Option LeafChild} {b : Bool} {version : Version} {x : Nibble}

/-- A node whose path has the bits `p` and which represents a trie below its root. -/
structure NodeInv (hasher : Hasher) (p : List Bool) (N : BatchedInternalNode) (T : LeafTrie) :
    Prop where
  slots : Slots hasher N T
  root : isLeaf (N.slot []) = false
  placed : T.Placed keyBits p
  compact : T.ChildrenCompact
  notLeaf : ¬ T.IsLeaf

/-- The node `N'` after an operation that ends in it: it represents the trie `T'` in which `o` has
taken the place of the leaf with the bits `k`, and its links to other nodes are those of `N`. -/
structure Changed (hasher : Hasher) (p k : List Bool) (o : Option LeafChild) (version : Version)
    (N : BatchedInternalNode) (T : LeafTrie) (N' : BatchedInternalNode) (T' : LeafTrie) :
    Prop where
  full : Full hasher N' T'
  isNode : T'.IsNode
  version : N'.version = .ok version
  placed : T'.Placed keyBits p
  compact : T'.ChildrenCompact
  updated : Trie.Updated keyBits k o T T'
  links : ∀ x : Nibble, (T'.sub x.bits).IsNode →
    N'.slot x.bits = N.slot x.bits ∧ T'.sub x.bits = T.sub x.bits

variable {r q' : List Bool} {child stored : LeafChild} {depth : ℕ}

theorem ne_concat_of_isPrefix (h : q' <+: q) : q' ≠ q ++ [b] := by
  rintro rfl
  simpa using h.length_le

theorem not_bits_isPrefix (x : Nibble) (hq : (q ++ [b]).length ≤ 4) : ¬ x.bits <+: q := by
  intro h
  have := h.length_le
  rw [x.length_bits] at this
  rw [length_append, length_singleton] at hq
  omega

theorem StopsAt.isPrefix_key (hstop : StopsAt T x q b) (hx : p ++ x.bits <+: k) :
    p ++ (q ++ [b]) <+: k := ((prefix_append_right_inj p).mpr hstop.onPath).trans hx

theorem isNode_sub_of_isPrefix (hnode : (T.sub q).IsNode) (hq' : q' <+: q) : (T.sub q').IsNode := by
  obtain ⟨u, rfl⟩ := hq'
  by_cases hu : u = []
  · rwa [hu, append_nil] at hnode
  · exact isNode_sub_of_ne_empty hu hnode.ne_empty

section Slots

variable (version : Version) (hinv : NodeInv hasher p N T)

include hinv

/-- Updating the hashes after a change of the subtrie at the position `r`. The update starts at a
position at or below `r`. -/
theorem changed_of_updateHashes (hq : (q ++ [b]).length ≤ 4) (hr : r <+: q ++ [b]) (hne : r ≠ [])
    (hoff : ∀ q', q'.length ≤ 4 → ¬ q' <+: q → ¬ r <+: q' → N₁.slot q' = N.slot q')
    (hbelow : ∀ q', q'.length ≤ 4 → ¬ q' <+: q → r <+: q' →
      Matches hasher (N₁.slot q') ((T.replace r s).sub q'))
    (habove : ∀ q', q' <+: q → ((T.replace r s).sub q').IsNode ∧ isLeaf (N₁.slot q') = false)
    (hlevel : ∀ x : Nibble, r <+: x.bits → ¬ ((T.replace r s).sub x.bits).IsNode)
    (hplaced : s.Placed keyBits (p ++ r)) (hcompact : s.Compact)
    (hfits : ∀ r' b', r' ≠ [] → r = r' ++ [b'] → Trie.Two s (T.sub (r' ++ [!b'])))
    (hopen : T.Open r) (hk : p ++ r <+: k) (hupdated : Trie.Updated keyBits k o (T.sub r) s) :
    ∃ N', N₁.updateHashes hasher (idx (q ++ [b])) version = .ok N' ∧
      Changed hasher p k o version N T N' (T.replace r s) := by
  have hbeside : ∀ q', ¬ q' <+: q → ¬ r <+: q' → (T.replace r s).sub q' = T.sub q' := by
    intro q' hq' hr'
    refine sub_replace_of_not_isPrefix hr' fun hpre => ?_
    rcases prefix_concat_iff.mp (hpre.trans hr) with rfl | h
    · exact hr' hr
    · exact hq' h
  obtain ⟨N', hN', hfull, hsame, hversion⟩ := updateHashes_spec (T := T.replace r s) version hq
    (fun q' hlen hq' => by
      by_cases hr' : r <+: q'
      · exact hbelow q' hlen hq' hr'
      · rw [hoff q' hlen hq' hr', hbeside q' hq' hr']
        exact hinv.slots q' (fun h => hq' (h ▸ nil_prefix)) hlen) habove
  refine ⟨N', hN', hfull, (habove [] nil_prefix).1, hversion, hinv.placed.replace hplaced,
    hinv.compact.replace hcompact hne hfits, Trie.Updated.replace hinv.placed hopen hk hupdated,
    fun x hx => ?_⟩
  have hr' : ¬ r <+: x.bits := fun h => hlevel x h hx
  have hx' := not_bits_isPrefix x hq
  rw [hsame _ x.length_bits.le hx', hoff _ x.length_bits.le hx' hr']
  exact ⟨rfl, hbeside _ hx' hr'⟩

/-- The same for a change of the child at the position itself into a leaf or nothing. -/
theorem changed_of_put (hq : (q ++ [b]).length ≤ 4)
    (hoff : ∀ q', q'.length ≤ 4 → ¬ q' <+: q → ¬ q ++ [b] <+: q' → N₁.slot q' = N.slot q')
    (hself : Matches hasher (N₁.slot (q ++ [b])) s)
    (hbelow : ∀ q', q'.length ≤ 4 → q ++ [b] <+: q' → q' ≠ q ++ [b] → N₁.slot q' = none)
    (habove : ∀ q', q' <+: q → isLeaf (N₁.slot q') = false) (hs : ¬ s.IsNode)
    (hplaced : s.Placed keyBits (p ++ (q ++ [b]))) (hfits : q ≠ [] → Trie.Two s (T.sub (q ++ [!b])))
    (hopen : T.Open (q ++ [b])) (hk : p ++ (q ++ [b]) <+: k)
    (hupdated : Trie.Updated keyBits k o (T.sub (q ++ [b])) s) :
    ∃ N', N₁.updateHashes hasher (idx (q ++ [b])) version = .ok N' ∧
      Changed hasher p k o version N T N' (T.replace (q ++ [b]) s) := by
  have hcompact : s.Compact := by
    cases s with
    | empty => trivial
    | leaf a => trivial
    | node l r => exact absurd trivial hs
  refine changed_of_updateHashes version hinv hq prefix_rfl (by simp) hoff ?_ ?_ ?_ hplaced hcompact
    ?_ hopen hk hupdated
  · rintro q' hlen - ⟨q'', rfl⟩
    rw [sub_replace_below]
    by_cases hnil : q'' = []
    · rw [hnil, append_nil]
      exact hself
    · rw [hbelow _ hlen (prefix_append _ _) (by simpa using hnil)]
      cases s with
      | empty => rw [sub_empty]; trivial
      | leaf a => rw [sub_leaf hnil]; trivial
      | node l r => exact absurd trivial hs
  · exact fun q' hq' => ⟨isNode_sub_replace hq' b T s, habove q' hq'⟩
  · rintro x ⟨q'', hx⟩
    rw [← hx, sub_replace_below]
    exact not_isNode_sub hs q''
  · intro r' b' hr' heq
    obtain ⟨rfl, rfl⟩ : q = r' ∧ b = b' := by simpa using heq
    exact hfits hr'

/-! ## The position of a leaf -/

theorem NodeInv.not_isLeaf_above (habove : ∀ q', q' <+: q → q' ≠ [] → (T.sub q').IsNode)
    (hq : q.length ≤ 4) (hq' : q' <+: q) : isLeaf (N.slot q') = false := by
  by_cases hnil : q' = []
  · rw [hnil]
    exact hinv.root
  · exact (hinv.slots q' hnil (hq'.length_le.trans hq)).isLeaf_of_isNode (habove q' hq' hnil)

theorem NodeInv.not_isLeaf_of_isNode (hnode : (T.sub q).IsNode)
    (hq : q.length ≤ 4) (hq' : q' <+: q) : isLeaf (N.slot q') = false :=
  hinv.not_isLeaf_above (fun _ hr _ => isNode_sub_of_isPrefix hnode hr) hq hq'

theorem NodeInv.open (hstop : StopsAt T x q b) : T.Open (q ++ [b]) := by
  intro q' q'' heq hne hleaf
  have hq' : q' <+: q := by
    rcases prefix_concat_iff.mp ⟨q'', heq⟩ with rfl | h
    · exact absurd (append_right_eq_self.mp heq) hne
    · exact h
  by_cases hnil : q' = []
  · rw [hnil] at hleaf
    exact hinv.notLeaf hleaf
  · have hnode := hstop.above q' hq' hnil
    cases hsub : T.sub q' with
    | empty => rw [hsub] at hleaf; exact hleaf
    | leaf a => rw [hsub] at hnode; exact hnode
    | node l r => rw [hsub] at hleaf; exact hleaf

theorem NodeInv.slot_below (hr : ¬ (T.sub r).IsNode) (hq' : q'.length ≤ 4) (hpre : r <+: q')
    (hne : q' ≠ r) : T.sub q' = .empty ∧ N.slot q' = none := by
  obtain ⟨q'', rfl⟩ := hpre
  have hq'' : q'' ≠ [] := fun h => hne (by rw [h, append_nil])
  have hsub : T.sub (r ++ q'') = .empty := by
    by_contra h
    exact hr (isNode_sub_of_ne_empty hq'' h)
  have hmatch := hinv.slots (r ++ q'') (by simp [hq'']) hq'
  rw [hsub, matches_empty] at hmatch
  exact ⟨hsub, hmatch⟩

theorem changed_of_put_child (hstop : StopsAt T x q b) (hx : p ++ x.bits <+: k) {c : Option Child}
    (hc : Matches hasher c s) (hs : ¬ s.IsNode) (hplaced : s.Placed keyBits (p ++ (q ++ [b])))
    (hfits : q ≠ [] → Trie.Two s (T.sub (q ++ [!b])))
    (hupdated : Trie.Updated keyBits k o (T.sub (q ++ [b])) s) :
    ∃ N', (N.put (q ++ [b]) c).updateHashes hasher (idx (q ++ [b])) version = .ok N' ∧
      Changed hasher p k o version N T N' (T.replace (q ++ [b]) s) := by
  have hlen := hstop.length_le
  refine changed_of_put version hinv hlen
    (fun q' _ _ h => slot_put_ne (by rintro rfl; exact h prefix_rfl) _) (by rwa [slot_put_self hlen])
    ?_ ?_ hs hplaced hfits (hinv.open hstop) (hstop.isPrefix_key hx) hupdated
  · intro q' hlen' hpre hne'
    rw [slot_put_ne hne']
    exact (hinv.slot_below hstop.stop hlen' hpre hne').2
  · intro q' hq'
    rw [slot_put_ne (ne_concat_of_isPrefix hq')]
    exact hinv.not_isLeaf_above hstop.above ((by simp : q.length ≤ (q ++ [b]).length).trans hlen) hq'

theorem changed_of_put_leaf (hstop : StopsAt T x q b) (hx : p ++ x.bits <+: keyBits child)
    (hold : T.sub (q ++ [b]) = .empty ∨
      ∃ stored, T.sub (q ++ [b]) = .leaf stored ∧ keyBits stored = keyBits child) :
    ∃ N', (N.put (q ++ [b]) (some (.leaf child))).updateHashes hasher (idx (q ++ [b])) version =
        .ok N' ∧ Changed hasher p (keyBits child) (some child) version N T N'
        (T.replace (q ++ [b]) (.leaf child)) := by
  refine changed_of_put_child version hinv hstop hx (matches_leaf.mpr rfl) (not_isNode_leaf child)
    (hstop.isPrefix_key hx) ?_ ?_
  · intro hq
    have htwo := hinv.compact.two hq (hstop.above q prefix_rfl hq) b
    rcases hold with h | ⟨stored, h, -⟩
    · rw [h] at htwo
      exact .inr (.inr htwo.of_empty)
    · rw [h] at htwo
      exact htwo.of_leaf
  · intro a
    rcases hold with h | ⟨stored, h, hkey⟩
    · rw [h]
      simp [eq_comm]
    · rw [h, mem_leaf, mem_leaf, Option.some.injEq, eq_comm]
      refine ⟨.inl, ?_⟩
      rintro (heq | ⟨rfl, hne'⟩)
      · exact heq
      · exact absurd hkey hne'

end Slots

/-! ## Splitting a leaf -/

/-- No child of `N₁` on the way to the position `u` is a leaf, and the others are those of `N`. -/
structure WayTo (N : BatchedInternalNode) (u : List Bool) (N₁ : BatchedInternalNode) : Prop where
  same : ∀ q', q'.length ≤ 4 → ¬ q' <+: u → N₁.slot q' = N.slot q'
  above : ∀ q', q' <+: u → isLeaf (N₁.slot q') = false
  root : N₁.slot [] = N.slot []

theorem WayTo.put_internal {u : List Bool} (h : WayTo N u N₁) (hlen : (u ++ [b]).length ≤ 4)
    (c : InternalChild) : WayTo N (u ++ [b]) (N₁.put (u ++ [b]) (some (.internal c))) where
  same q' hq' hpre := by
    rw [slot_put_of_not_isPrefix prefix_rfl hpre]
    exact h.same q' hq' fun hu => hpre (hu.trans (prefix_append _ _))
  above q' hq' := by
    rcases prefix_concat_iff.mp hq' with rfl | hq'
    · rw [slot_put_self hlen]
      rfl
    · rw [slot_put_ne (ne_concat_of_isPrefix hq')]
      exact h.above q' hq'
  root := by rw [slot_put_ne (by simp), h.root]

theorem insertInternalChildren_spec (version : Version) (untilHeight : ℕ) {i : ℕ} {u : List Bool}
    (hway : WayTo N u N₁) (hpath : u ++ x.lowBits i = x.bits) (hi : untilHeight ≤ i) :
    ∃ N' u', insertInternalChildren version x untilHeight N₁ i (idx u) = .ok (N', idx u') ∧
      u <+: u' ∧ u' ++ x.lowBits untilHeight = x.bits ∧ WayTo N u' N' := by
  induction i generalizing N₁ u with
  | zero =>
    obtain rfl : untilHeight = 0 := by omega
    exact ⟨N₁, u, rfl, prefix_rfl, hpath, hway⟩
  | succ i ih =>
    unfold insertInternalChildren
    split_ifs with hge
    · rw [Nibble.lowBits, ← singleton_append, ← append_assoc] at hpath
      have hlen : (u ++ [x.getBit i]).length ≤ 4 := by
        rw [← x.length_bits, ← hpath]
        simp
      dsimp only
      rw [← idx_concat, set_idx hlen, ok_bind]
      obtain ⟨N', u', hN', hu', hrest⟩ := ih (hway.put_internal hlen _) hpath hge
      exact ⟨N', u', hN', (prefix_append _ _).trans hu', hrest⟩
    · obtain rfl : untilHeight = i + 1 := by omega
      exact ⟨N₁, u, rfl, prefix_rfl, hpath, hway⟩

/-- The two leaves in place of the stored one: below the bits that they have in common. -/
def splitTrie (bit : Bool) (child stored : LeafChild) : LeafTrie :=
  .branch bit (.leaf child) (.leaf stored)

/-- The leaves of a split after the position `w`. -/
def putTwo (N : BatchedInternalNode) (w : List Bool) (bit : Bool) (child stored : LeafChild) :
    BatchedInternalNode :=
  (N.put (w ++ [bit]) (some (.leaf child))).put (w ++ [!bit]) (some (.leaf stored))

section Split

variable {w : List Bool} {bit : Bool}

theorem compact_splitTrie : (splitTrie bit child stored).Compact := by
  rw [splitTrie, compact_branch]
  exact ⟨.inl ⟨by simp, by simp⟩, trivial, trivial⟩

theorem WayTo.isLeaf_putTwo (hway : WayTo N w N₁) (hq' : q' <+: w) :
    isLeaf ((N₁.putTwo w bit child stored).slot q') = false := by
  rw [putTwo, slot_put_ne (ne_concat_of_isPrefix hq'), slot_put_ne (ne_concat_of_isPrefix hq')]
  exact hway.above q' hq'

/-- Below a leaf that is split there is one of the two leaves, or nothing. -/
theorem WayTo.matches_putTwo (hway : WayTo N w N₁) (hlen : (w ++ [bit]).length ≤ 4)
    (hempty : T.sub q' = .empty) (hnone : N.slot q' = none) (hq' : q'.length ≤ 4)
    (hpre : ¬ q' <+: w) :
    Matches hasher ((N₁.putTwo w bit child stored).slot q')
        ((T.replace w (splitTrie bit child stored)).sub q') ∧
      ¬ ((T.replace w (splitTrie bit child stored)).sub q').IsNode := by
  by_cases h2 : q' = w ++ [!bit]
  · rw [h2, putTwo, slot_put_self (by simpa using hlen), sub_replace_below, sub_cons, splitTrie,
      child_branch_not]
    exact ⟨matches_leaf.mpr rfl, not_isNode_leaf stored⟩
  by_cases h1 : q' = w ++ [bit]
  · rw [putTwo, slot_put_ne h2, h1, slot_put_self hlen, sub_replace_below, sub_cons, splitTrie,
      child_branch]
    exact ⟨matches_leaf.mpr rfl, not_isNode_leaf child⟩
  have hsub : (T.replace w (splitTrie bit child stored)).sub q' = .empty := by
    by_cases hw : w <+: q'
    · obtain ⟨_ | ⟨b', q''⟩, rfl⟩ := hw
      · exact absurd (by rw [append_nil]) hpre
      · rw [sub_replace_below, sub_cons, splitTrie]
        rcases Bool.eq_or_eq_not b' bit with rfl | rfl
        · rw [child_branch, sub_leaf fun h => h1 (by rw [h])]
        · rw [child_branch_not, sub_leaf fun h => h2 (by rw [h])]
    · rw [sub_replace_of_not_isPrefix hw hpre, hempty]
  rw [putTwo, slot_put_ne h2, slot_put_ne h1, hway.same q' hq' hpre, hnone, hsub]
  exact ⟨trivial, not_isNode_empty⟩

/-- A split that ends in the node: the leaves differ after the position `r ++ w`. -/
theorem changed_of_split (hinv : NodeInv hasher p N T) (hne : r ≠ [])
    (hlen : (r ++ w ++ [bit]).length ≤ 4) (hopen : T.Open r) (hsub : T.sub r = .leaf stored)
    (hchild : p ++ (r ++ w) ++ [bit] <+: keyBits child)
    (hstored : p ++ (r ++ w) ++ [!bit] <+: keyBits stored)
    (hkey : keyBits stored ≠ keyBits child) (hway : WayTo N (r ++ w) N₁) :
    ∃ N' T', (N₁.putTwo (r ++ w) bit child stored).updateHashes hasher (idx (r ++ w ++ [bit]))
        version = .ok N' ∧
      Changed hasher p (keyBits child) (some child) version N T N' T' := by
  have hreplace : T.replace r ((leaf stored).replace w (splitTrie bit child stored)) =
      T.replace (r ++ w) (splitTrie bit child stored) := by
    rw [replace_append, hsub]
  have hnode : (splitTrie bit child stored).IsNode := isNode_branch _ _ _
  have hreplaced (q' : List Bool) (t : LeafTrie) :
      (t.replace q' (splitTrie bit child stored)).IsNode := by
    by_cases hnil : q' = []
    · rwa [hnil, replace_nil]
    · exact isNode_replace hnil _ _
  have hplaced : (splitTrie bit child stored).Placed keyBits (p ++ r ++ w) := by
    rw [splitTrie, placed_branch, placed_leaf, placed_leaf, append_assoc p]
    exact ⟨hchild, hstored⟩
  have hbelow : ∀ q', q'.length ≤ 4 → ¬ q' <+: r ++ w → r <+: q' →
      Matches hasher ((N₁.putTwo (r ++ w) bit child stored).slot q')
          ((T.replace (r ++ w) (splitTrie bit child stored)).sub q') ∧
        ¬ ((T.replace (r ++ w) (splitTrie bit child stored)).sub q').IsNode := by
    intro q' hq' hpre hr
    obtain ⟨hempty, hnone⟩ := hinv.slot_below (by rw [hsub]; exact not_isNode_leaf stored) hq' hr
      fun h => hpre (h ▸ prefix_append _ _)
    exact hway.matches_putTwo hlen hempty hnone hq' hpre
  refine (changed_of_updateHashes (s := (leaf stored).replace w (splitTrie bit child stored)) version
    hinv hlen ((prefix_append r w).trans (prefix_append _ _)) hne ?_ ?_ ?_ ?_ ?_ ?_ ?_ hopen ?_
    ?_).imp fun N' h => ⟨_, h⟩
  · intro q' hq' hpre hr
    have hoff (y : Bool) : q' ≠ r ++ w ++ [y] := by
      rintro rfl
      exact hr (by simp)
    rw [putTwo, slot_put_ne (hoff _), slot_put_ne (hoff _), hway.same q' hq' hpre]
  · intro q' hq' hpre hr
    rw [hreplace]
    exact (hbelow q' hq' hpre hr).1
  · intro q' hq'
    refine ⟨?_, hway.isLeaf_putTwo hq'⟩
    obtain ⟨q'', hq''⟩ := hq'
    rw [hreplace, ← hq'', sub_replace_append]
    exact hreplaced q'' _
  · intro y hy hynode
    rw [hreplace] at hynode
    exact (hbelow y.bits y.length_bits.le (not_bits_isPrefix y hlen) hy).2 hynode
  · have hr : (T.sub r).Placed keyBits (p ++ r) := hinv.placed.sub r
    rw [hsub] at hr
    exact hr.replace hplaced
  · exact Trie.Compact.replace (compact_leaf stored) compact_splitTrie fun _ _ _ => .inr (.inl hnode)
  · exact fun _ _ _ _ => .inr (.inl (hreplaced w _))
  · refine List.IsPrefix.trans ?_ hchild
    simp
  · intro a
    rw [hsub, mem_replace_of_not_isNode (not_isNode_leaf stored), splitTrie, mem_branch,
      mem_leaf, mem_leaf, Option.some.injEq, eq_comm]
    refine or_congr Iff.rfl ⟨fun h => ⟨h, by rwa [h]⟩, fun h => h.1⟩

end Split

/-- The node after a split whose two leaves belong into a new node below: the children on the way
there are internal. -/
structure Collided (p : List Bool) (N : BatchedInternalNode) (T : LeafTrie) (x : Nibble)
    (child stored : LeafChild) (N' : BatchedInternalNode) : Prop where
  position : ∃ r, r ≠ [] ∧ r <+: x.bits ∧ T.sub r = .leaf stored
  stored_isPrefix : p ++ x.bits <+: keyBits stored
  ne : stored.key.hash ≠ child.key.hash
  same : ∀ q', q'.length ≤ 4 → ¬ q' <+: x.bits → N'.slot q' = N.slot q'
  above : ∀ q', q' <+: x.bits → isLeaf (N'.slot q') = false
  root : N'.slot [] = N.slot []

theorem WayTo.collided (hway : WayTo N x.bits N₁) (hstop : StopsAt T x q b)
    (hsub : T.sub (q ++ [b]) = .leaf stored) (hstored : p ++ x.bits <+: keyBits stored)
    (hne : stored.key.hash ≠ child.key.hash) : Collided p N T x child stored N₁ :=
  ⟨⟨q ++ [b], by simp, hstop.onPath, hsub⟩, hstored, hne, hway.same, hway.above, hway.root⟩

theorem prefixBitsInCommon_spec {a b : Hash} (hp : p.length = 4 * depth)
    (hdepth : depth < 64) (hr : r ≠ []) (ha : p ++ r <+: a.bits) (hb : p ++ r <+: b.bits) :
    ∃ n, a.prefixBitsInCommon b depth = .ok n ∧ a.prefixBits b = p.length + n ∧ r.length ≤ n := by
  have hle := (prefix_bits_iff a b ha).mp hb
  have hpos := length_pos_iff.mpr hr
  rw [length_append] at hle
  refine ⟨a.prefixBits b - depth * 4, ?_, by omega, by omega⟩
  rw [prefixBitsInCommon, if_pos hdepth, if_pos (by omega)]

/-- After the bits in common the two hashes differ. -/
theorem prefix_not_of_prefixBits {a a' : Hash} {u : List Bool} {bit : Bool}
    (h : u ++ [bit] <+: a'.bits) (hu : a.prefixBits a' = u.length) : u ++ [!bit] <+: a.bits := by
  have hlen := h.length_le
  rw [length_bits, length_append, length_singleton] at hlen
  refine prefix_concat_not (prefix_bits_of_le a a' ((prefix_append _ _).trans h) hu.ge) ?_ fun ha => ?_
  · rw [length_bits]
    omega
  · have hle := (prefix_bits_iff a a' ha).mp h
    rw [length_append, length_singleton] at hle
    omega

theorem splitNode_spec (hinv : NodeInv hasher p N T)
    (hstop : StopsAt T x q b) (hp : p.length = 4 * depth) (hdepth : depth < 64)
    (hx : p ++ x.bits <+: keyBits child) (hnibble : child.key.hash.getNibble depth = .ok x)
    (hsub : T.sub (q ++ [b]) = .leaf stored) (hne : stored.key.hash ≠ child.key.hash) :
    (∃ N' T', N.splitNode hasher (idx (q ++ [b])) stored child depth =
        .ok (N', .insertComplete none) ∧
      Changed hasher p (keyBits child) (some child) child.key.version N T N' T') ∨
    ∃ N', N.splitNode hasher (idx (q ++ [b])) stored child depth =
        .ok (N', .createNewBatchedInternalNodes stored) ∧ Collided p N T x child stored N' := by
  have hlen := hstop.length_le
  have hr : q ++ [b] ≠ [] := by simp
  have hstored : p ++ (q ++ [b]) <+: keyBits stored := by
    have h := hinv.placed.sub (q ++ [b])
    rwa [hsub] at h
  obtain ⟨n, hn, htotal, hrn⟩ := prefixBitsInCommon_spec hp hdepth hr hstored (hstop.isPrefix_key hx)
  have hqlen : q.length ≤ 4 := (by simp : q.length ≤ (q ++ [b]).length).trans hlen
  have hway : WayTo N q N :=
    ⟨fun _ _ _ => rfl, fun _ hq' => hinv.not_isLeaf_above hstop.above hqlen hq', rfl⟩
  replace hway := hway.put_internal hlen ⟨placeholder, child.key.version⟩
  unfold splitNode
  dsimp only
  rw [set_idx hlen, ok_bind, height_idx hlen]
  by_cases hlevel : (q ++ [b]).length = 4
  · -- the stored leaf is at level `0`
    right
    have heq : q ++ [b] = x.bits := hstop.onPath.eq_of_length (by rw [hlevel, x.length_bits])
    rw [if_pos (by omega)]
    rw [heq] at hway hstored
    exact ⟨_, rfl, by rw [heq]; exact hway.collided hstop hsub hstored hne⟩
  rw [if_neg (by omega), hn, ok_bind, ensure_decide (by have := length_pos_iff.mpr hr; omega), hnibble,
    ok_bind]
  obtain ⟨N₂, u, hloop, hu, hurest, hway⟩ := insertInternalChildren_spec child.key.version
    (if n < 4 then 4 - n else 0) hway (Nibble.append_lowBits hstop.onPath) (by split_ifs <;> omega)
  rw [hloop, ok_bind]
  dsimp only
  have hulen : u.length + (if n < 4 then 4 - n else 0) = 4 := by
    have h := congrArg List.length hurest
    rwa [length_append, x.length_lowBits, x.length_bits] at h
  by_cases hn4 : n < 4
  · left
    rw [if_pos hn4] at hurest hulen ⊢
    obtain ⟨w, rfl⟩ := hu
    have hbit : q ++ [b] ++ w ++ [x.getBit (4 - n - 1)] <+: x.bits := by
      rw [show 4 - n = 4 - n - 1 + 1 by omega, Nibble.lowBits] at hurest
      exact ⟨x.lowBits (4 - n - 1), by rw [append_assoc _ [_], singleton_append, hurest]⟩
    have hchild : p ++ (q ++ [b] ++ w) ++ [x.getBit (4 - n - 1)] <+: keyBits child := by
      rw [append_assoc p]
      exact ((prefix_append_right_inj p).mpr hbit).trans hx
    have hblen := hbit.length_le.trans x.length_bits.le
    obtain ⟨N', T', hN', hchanged⟩ := changed_of_split hinv hr hblen (hinv.open hstop) hsub hchild
      (prefix_not_of_prefixBits hchild (by rw [htotal, length_append]; omega))
      (fun h => hne (bits_injective h)) hway
    unfold insertTwoLeafChildren
    dsimp only
    rw [← idx_concat, ← idx_concat, set_idx hblen, ok_bind, set_idx (by simpa using hblen), ok_bind]
    rw [putTwo] at hN'
    rw [hN', ok_bind]
    exact ⟨N', T', rfl, hchanged⟩
  · right
    rw [if_neg hn4] at hurest hulen ⊢
    obtain rfl : u = x.bits := by simpa [Nibble.lowBits] using hurest
    refine ⟨N₂, rfl, hway.collided hstop hsub (prefix_bits_of_le _ _ hx ?_) hne⟩
    rw [length_append, x.length_bits, htotal]
    omega

/-! ## Insertion -/

/-- The key of the leaf with the bits `k`, if there is one. -/
def StaleLeaf (T : LeafTrie) (k : List Bool) (staleLeaf : Option LeafKey) : Prop :=
  ∀ l, staleLeaf = some l ↔ ∃ a ∈ T, keyBits a = k ∧ a.key = l

theorem staleLeaf_none {k : List Bool} (h : ∀ a ∈ T, keyBits a ≠ k) : StaleLeaf T k none := by
  intro l
  constructor
  · rintro ⟨⟩
  · rintro ⟨a, ha, hk, -⟩
    exact absurd hk (h a ha)

theorem staleLeaf_some {k : List Bool} {a : LeafChild} (ha : a ∈ T) (hk : keyBits a = k)
    (h : ∀ a' ∈ T, keyBits a' = k → a' = a) : StaleLeaf T k (some a.key) := by
  intro l
  constructor
  · rintro ⟨⟩
    exact ⟨a, ha, hk, rfl⟩
  · rintro ⟨a', ha', hk', rfl⟩
    rw [h a' ha' hk']

/-- The search for a key ends at an empty position, at a leaf, or at a link to the node below. -/
theorem NodeInv.search (hinv : NodeInv hasher p N T) (hx : p ++ x.bits <+: k) :
    (∃ q b, StopsAt T x q b ∧ N.findChild x 4 0 = .ok (idx (q ++ [b]), false) ∧
      (T.sub (q ++ [b]) = .empty ∧ N.isEmpty (idx (q ++ [b])) = .ok true ∧
          (∀ a ∈ T, keyBits a ≠ k) ∨
        ∃ a ∈ T, T.sub (q ++ [b]) = .leaf a ∧ N.isEmpty (idx (q ++ [b])) = .ok false ∧
          N.getLeaf (idx (q ++ [b])) = .ok a ∧ ∀ a' ∈ T, keyBits a' = k → a' = a)) ∨
    ∃ c, N.findChild x 4 0 = .ok (idx x.bits, true) ∧ N.getInternal (idx x.bits) = .ok c ∧
      N.slot x.bits = some (.internal c) := by
  rcases findChild_spec hinv.slots x with ⟨q, b, hstop, hfind⟩ | ⟨hnodes, hfind⟩
  · have hlen := hstop.length_le
    have hmatch := hinv.slots (q ++ [b]) (by simp) hlen
    -- a leaf with the bits of the key stands where the search stops
    have hmem : ∀ a ∈ T, keyBits a = k → a ∈ T.sub (q ++ [b]) := fun a ha hk =>
      mem_sub hinv.placed (hinv.open hstop) ha
        (hk ▸ hstop.isPrefix_key hx)
    refine .inl ⟨q, b, hstop, hfind, ?_⟩
    rw [isEmpty_idx hlen]
    cases hsub : T.sub (q ++ [b]) with
    | node l r =>
      have hnode := hstop.stop
      rw [hsub] at hnode
      exact absurd trivial hnode
    | empty =>
      rw [hsub, matches_empty] at hmatch
      rw [hsub] at hmem
      exact .inl ⟨rfl, by rw [hmatch]; rfl, hmem⟩
    | leaf a =>
      rw [hsub, matches_leaf] at hmatch
      rw [hsub] at hmem
      exact .inr ⟨a, mem_of_mem_sub (by rw [hsub]; rfl), rfl, by rw [hmatch]; rfl,
        getLeaf_idx hlen hmatch, hmem⟩
  · have hnode := hnodes x.bits prefix_rfl x.bits_ne_nil
    obtain ⟨v, hv⟩ :=
      (matches_of_isNode hnode).mp (hinv.slots x.bits x.bits_ne_nil x.length_bits.le)
    refine .inr ⟨_, hfind, ?_, hv⟩
    rw [getInternal, get_idx x.length_bits.le, ok_bind, hv]

/-- `insert` ends in the node, goes on to the node below, or collides with another leaf. The leaf has
the version of the update; a promoted leaf with an older version is only inserted into an empty
node. -/
theorem insert_spec (hinv : NodeInv hasher p N T)
    (hp : p.length = 4 * depth) (hdepth : depth < 64) (hx : p ++ x.bits <+: keyBits child)
    (hnibble : child.key.hash.getNibble depth = .ok x)
    (hversion : T = .empty ∨ child.key.version = version) :
    (∃ N' T' staleLeaf, N.insert hasher child depth version = .ok (N', .insertComplete staleLeaf) ∧
      Changed hasher p (keyBits child) (some child) version N T N' T' ∧
      StaleLeaf T (keyBits child) staleLeaf ∧ ¬ (T.sub x.bits).IsNode) ∨
    (∃ c, N.insert hasher child depth version = .ok (N, .insertIntoExistingNode c.version) ∧
      N.slot x.bits = some (.internal c)) ∨ ∃ N' stored, N.insert hasher child depth version =
      .ok (N', .createNewBatchedInternalNodes stored) ∧ Collided p N T x child stored N' := by
  unfold insert
  rw [hnibble, ok_bind]
  rcases hinv.search hx with ⟨q, b, hstop, hfind, ⟨hsub, hempty, hmem⟩ |
    ⟨stored, hstored, hsub, hempty, hleaf, hmem⟩⟩ | ⟨c, hfind, hlink, hslot⟩
  · rw [hfind, ok_bind]
    dsimp only
    rw [if_neg (by simp), hempty, ok_bind, if_pos rfl, insertIntoEmptyChild,
      set_idx hstop.length_le, ok_bind]
    obtain ⟨N', hN', hchanged⟩ := changed_of_put_leaf version hinv hstop hx (.inl hsub)
    rw [hN', ok_bind]
    exact .inl ⟨N', _, none, rfl, hchanged, staleLeaf_none hmem, hstop.not_isNode⟩
  · have hver : child.key.version = version := by
      refine hversion.resolve_left fun hempty => ?_
      rw [hempty, sub_empty] at hsub
      cases hsub
    rw [hfind, ok_bind]
    dsimp only
    rw [if_neg (by simp), hempty, ok_bind, if_neg (by simp), hleaf, ok_bind]
    split_ifs with hkey
    · rw [overwrite, set_idx hstop.length_le, ok_bind, hver]
      obtain ⟨N', hN', hchanged⟩ := changed_of_put_leaf version hinv hstop hx
        (.inr ⟨stored, hsub, congrArg bits hkey⟩)
      rw [hN', ok_bind]
      exact .inl ⟨N', _, some stored.key, rfl, hchanged,
        staleLeaf_some hstored (congrArg bits hkey) hmem, hstop.not_isNode⟩
    · rcases splitNode_spec hinv hstop hp hdepth hx hnibble hsub hkey with
        ⟨N', T', hN', hchanged⟩ | ⟨N', hN', hcollided⟩
      · rw [hver] at hchanged
        refine .inl ⟨N', T', none, hN', hchanged, staleLeaf_none fun a ha hk => hkey ?_,
          hstop.not_isNode⟩
        obtain rfl : a = stored := hmem a ha hk
        exact bits_injective hk
      · exact .inr (.inr ⟨N', stored, hN', hcollided⟩)
  · rw [hfind, ok_bind]
    dsimp only
    rw [if_pos rfl, hlink, ok_bind]
    exact .inr (.inl ⟨_, rfl, hslot⟩)

/-! ## Links -/

/-- A node that can be linked to the node below the nibble `x`: it represents the trie beside the
path of the nibble, and there is no leaf above. -/
structure Linkable (hasher : Hasher) (N : BatchedInternalNode) (T : LeafTrie) (x : Nibble) :
    Prop where
  beside : ∀ q', q'.length ≤ 4 → ¬ q' <+: x.bits → Matches hasher (N.slot q') (T.sub q')
  above : ∀ q', q' <+: x.bits → q' ≠ x.bits → isLeaf (N.slot q') = false

theorem linkable_empty (hasher : Hasher) (x : Nibble) : Linkable hasher empty .empty x where
  beside q' _ _ := by
    rw [slot_empty, sub_empty]
    trivial
  above q' _ _ := by
    rw [slot_empty]
    rfl

theorem NodeInv.linkable (hinv : NodeInv hasher p N T) (hnode : (T.sub x.bits).IsNode) :
    Linkable hasher N T x where
  beside q' hq' hpre := hinv.slots q' (fun h => hpre (h ▸ nil_prefix)) hq'
  above _ hpre _ := hinv.not_isLeaf_of_isNode hnode x.length_bits.le hpre

theorem Collided.linkable {N' : BatchedInternalNode}
    (hinv : NodeInv hasher p N T) (h : Collided p N T x child stored N') :
    Linkable hasher N' T x where
  beside q' hq' hpre := by
    rw [h.same q' hq' hpre]
    exact hinv.slots q' (fun heq => hpre (heq ▸ nil_prefix)) hq'
  above q' hpre _ := h.above q' hpre

theorem linkChild_spec {S : LeafTrie} (hlink : Linkable hasher N T x) (hnode : S.IsNode)
    (version : Version) :
    ∃ N', N.linkChild hasher x ⟨trieHash hasher S, version⟩ = .ok N' ∧
      Full hasher N' (T.replace x.bits S) ∧ N'.version = .ok version ∧
      N'.slot x.bits = some (.internal ⟨trieHash hasher S, version⟩) ∧
      ∀ y : Nibble, y ≠ x → N'.slot y.bits = N.slot y.bits := by
  have hx := x.length_bits.le
  obtain ⟨q, b, hqb⟩ : ∃ q b, x.bits = q ++ [b] :=
    ⟨_, _, (dropLast_append_getLast x.bits_ne_nil).symm⟩
  have hlen : (q ++ [b]).length ≤ 4 := hqb ▸ hx
  have hnot : ∀ q', q'.length ≤ 4 → q' ≠ x.bits → ¬ q' <+: q → ¬ q' <+: x.bits := by
    intro q' _ hne hq' hpre
    rw [hqb] at hpre hne
    exact (prefix_concat_iff.mp hpre).elim hne hq'
  unfold linkChild
  rw [nibbleToIndex_eq, set_idx hx, ok_bind, hqb]
  dsimp only
  obtain ⟨N', hN', hfull, hsame, hver⟩ := updateHashes_spec (T := T.replace x.bits S)
    (N := N.put x.bits (some (.internal ⟨trieHash hasher S, version⟩))) version hlen
    (fun q' hq' hpre => by
      by_cases heq : q' = x.bits
      · rw [heq, slot_put_self hx, sub_replace_self]
        exact (matches_of_isNode hnode).mpr ⟨version, rfl⟩
      · have hpre' := hnot q' hq' heq hpre
        have hbeside : ¬ x.bits <+: q' := fun h =>
          heq (h.eq_of_length_le (by rw [x.length_bits]; exact hq')).symm
        rw [slot_put_ne heq, sub_replace_of_not_isPrefix hbeside hpre']
        exact hlink.beside q' hq' hpre')
    (fun q' hq' => by
      have hpre : q' <+: x.bits := hqb ▸ hq'.trans (prefix_append _ _)
      have hne : q' ≠ x.bits := hqb ▸ ne_concat_of_isPrefix hq'
      refine ⟨?_, by rw [slot_put_ne hne]; exact hlink.above q' hpre hne⟩
      rw [hqb]
      exact isNode_sub_replace hq' b T S)
  rw [hqb] at hN'
  refine ⟨N', hN', hqb ▸ hfull, hver, ?_, fun y hy => ?_⟩
  · rw [← hqb, hsame x.bits hx (not_bits_isPrefix x hlen), slot_put_self hx]
  · have hne : y.bits ≠ x.bits := fun h => hy (Nibble.bits_injective h)
    rw [hsame y.bits y.length_bits.le (not_bits_isPrefix y hlen), slot_put_ne hne]

end BatchedInternalNode

end ConcordBft.SparseMerkle
