import ConcordBft.SparseMerkle.NodeInsert

/-!
# Removal from one node

A leaf is removed from the node that represents a trie. A leaf that stays behind alone moves up to
the highest position where it is alone; if it leaves the node, the node becomes empty and the leaf
is handed to the node above. `unlinkChild` puts it there.
-/

namespace ConcordBft.SparseMerkle

open Verif Verif.Exec Trie List Option

namespace BatchedInternalNode

variable {hasher : Hasher} {p k q r : List Bool} {N N₁ : BatchedInternalNode} {T : LeafTrie}
  {b c : Bool} {version : Version} {x : Nibble} {peer : LeafChild}

/-! ## Counting children -/

def NoChildren (N : BatchedInternalNode) : Prop := ∀ q, q.length ≤ 4 → N.slot q = none

theorem NoChildren.numChildren (h : NoChildren N) : N.numChildren = 0 := by
  rw [BatchedInternalNode.numChildren, countP_eq_zero]
  intro i _
  obtain ⟨q, hq, hi⟩ := exists_position i
  have hslot := h q hq
  rw [slot, dif_pos (idx_lt hq), show (⟨idx q, idx_lt hq⟩ : Fin 31) = i from Fin.ext hi] at hslot
  simp [hslot]

section

variable (h : ∀ q, q ≠ [] → q.length ≤ 4 → N.slot q = none)

include h

theorem children_eq_none_of_ne {i : Fin 31} (hi : i ≠ 0) : N.children i = none := by
  obtain ⟨q, hq, hidx⟩ := exists_position i
  have hne : q ≠ [] := by
    rintro rfl
    exact hi (Fin.ext hidx.symm)
  have hslot := h q hne hq
  rwa [slot, dif_pos (idx_lt hq), show (⟨idx q, idx_lt hq⟩ : Fin 31) = i from Fin.ext hidx] at hslot

theorem numChildren_root (hroot : N.slot [] ≠ none) : N.numChildren = 1 := by
  have hpred : (fun i => (N.children i).isSome) = fun i : Fin 31 => decide (i = 0) := by
    funext i
    by_cases hi : i = 0
    · rw [hi, ← slot_nil]
      simpa using isSome_iff_ne_none.mpr hroot
    · rw [children_eq_none_of_ne h hi]
      simp [hi]
  rw [numChildren, hpred]
  decide

theorem safeToRemove_root (hroot : isLeaf (N.slot []) = false) : N.safeToRemove = true := by
  have hleaf : N.numLeafChildren = 0 := by
    rw [numLeafChildren, countP_eq_zero]
    intro i _
    by_cases hi : i = 0
    · rw [hi, ← slot_nil, hroot]
      simp
    · rw [children_eq_none_of_ne h hi]
      simp [isLeaf]
  have hlevel : N.numLevel0Children = 0 := by
    rw [numLevel0Children, countP_eq_zero]
    intro i _
    by_cases hi : i = 0
    · simp [hi]
    · rw [children_eq_none_of_ne h hi]
      simp
  rw [BatchedInternalNode.safeToRemove, hleaf, hlevel]
  rfl

end

theorem NoChildren.safeToRemove (h : NoChildren N) : N.safeToRemove = true :=
  safeToRemove_root (fun q _ hq => h q hq) (by rw [h [] (Nat.zero_le 4)]; rfl)

theorem not_safeToRemove (hq : q.length ≤ 4) (h : isLeaf (N.slot q) = true) :
    N.safeToRemove = false := by
  have hpos : N.numLeafChildren ≠ 0 := by
    rw [numLeafChildren, Ne, countP_eq_zero]
    intro hall
    rw [slot, dif_pos (idx_lt hq)] at h
    exact hall _ (mem_finRange _) h
  simp [BatchedInternalNode.safeToRemove, hpos]

/-! ## Moving a leaf up -/

/-- The node `N₁` has lost everything below the position `r`; the rest is as in `N`. -/
structure Cleared (N : BatchedInternalNode) (r : List Bool) (N₁ : BatchedInternalNode) : Prop where
  beside : ∀ q', q'.length ≤ 4 → ¬ q' <+: r → ¬ r <+: q' → N₁.slot q' = N.slot q'
  below : ∀ q', q'.length ≤ 4 → r <+: q' → q' ≠ r → N₁.slot q' = none
  above : ∀ q', q' <+: r → q' ≠ r → N₁.slot q' = N.slot q'

theorem Cleared.put (h : Cleared N r N₁) (child : Option Child) : Cleared N r (N₁.put r child) where
  beside q' hq' hpre hpre' := by
    rw [slot_put_of_not_isPrefix prefix_rfl hpre]
    exact h.beside q' hq' hpre hpre'
  below q' hq' hpre hne := by
    rw [slot_put_ne hne]
    exact h.below q' hq' hpre hne
  above q' hpre hne := by
    rw [slot_put_ne hne]
    exact h.above q' hpre hne

variable {d : Bool} {depth : ℕ} {a : LeafChild}

theorem Cleared.parent (hinv : NodeInv hasher p N T) (h : Cleared N (r ++ [d]) N₁)
    (hlen : (r ++ [d]).length ≤ 4) (hsibling : T.sub (r ++ [!d]) = .empty) :
    Cleared N r (N₁.put (r ++ [d]) none) where
  beside q' hq' hpre hpre' := by
    have hne : q' ≠ r ++ [d] := fun heq => hpre' (heq ▸ prefix_append _ _)
    rw [slot_put_ne hne]
    refine h.beside q' hq' (fun h' => hpre ((prefix_concat_iff.mp h').resolve_left hne))
      fun h' => hpre' ?_
    exact (prefix_append _ _).trans h'
  below q' hq' hpre hne := by
    by_cases heq : q' = r ++ [d]
    · rw [heq, slot_put_self hlen]
    · rw [slot_put_ne heq]
      by_cases hpre' : r ++ [d] <+: q'
      · exact h.below q' hq' hpre' heq
      · -- a child below the empty sibling
        obtain ⟨q'', rfl⟩ := hpre
        rcases q'' with _ | ⟨d', q''⟩
        · exact absurd (append_nil r) hne
        · have hd : d' = !d := by
            rw [Bool.eq_not]
            rintro rfl
            exact hpre' ⟨q'', by simp⟩
          have hnot : ¬ r ++ d' :: q'' <+: r ++ [d] := by
            intro h'
            have hcons := (prefix_append_right_inj r).mp h'
            rw [hd] at hcons
            simp at hcons
          rw [h.beside _ hq' hnot hpre']
          have hmatch := hinv.slots _ (by simp) hq'
          have hsub : T.sub (r ++ d' :: q'') = .empty := by
            rw [← singleton_append, ← append_assoc, sub_append, hd, hsibling, sub_empty]
          rwa [hsub, matches_empty] at hmatch
  above q' hpre hne := by
    have hne' : q' ≠ r ++ [d] := ne_concat_of_isPrefix hpre
    rw [slot_put_ne hne']
    exact h.above q' (hpre.trans (prefix_append _ _)) hne'

theorem Cleared.sibling (h : Cleared N (r ++ [d]) N₁) (hlen : (r ++ [d]).length ≤ 4) :
    N₁.slot (r ++ [!d]) = N.slot (r ++ [!d]) := by
  have hsib : (r ++ [!d]).length ≤ 4 := by simpa using hlen
  refine h.beside _ hsib ?_ ?_ <;>
  · intro hpre
    have := hpre.eq_of_length (by simp)
    simp at this

theorem Cleared.noChildren (h : Cleared N [] N₁) : NoChildren (N₁.put [] none) := by
  intro q' hq'
  by_cases hnil : q' = []
  · rw [hnil, slot_put_self (q := []) (Nat.zero_le 4)]
  · rw [slot_put_ne hnil]
    exact h.below q' hq' nil_prefix hnil

/-- Without the leaf with the bits `k` only `peer` is left at the position `r`, which is cleared. -/
structure Alone (p k : List Bool) (N : BatchedInternalNode) (T : LeafTrie) (r : List Bool)
    (peer : LeafChild) (N₁ : BatchedInternalNode) : Prop where
  cleared : Cleared N r N₁
  isNode : (T.sub r).IsNode
  peer_isPrefix : p ++ r <+: keyBits peer
  key_isPrefix : p ++ r <+: k
  updated : Trie.Updated keyBits k none (T.sub r) (.leaf peer)

theorem Alone.parent (hinv : NodeInv hasher p N T) (h : Alone p k N T (r ++ [d]) peer N₁)
    (hlen : (r ++ [d]).length ≤ 4) (hsibling : T.sub (r ++ [!d]) = .empty) :
    Alone p k N T r peer (N₁.put (r ++ [d]) none) := by
  have hpre : p ++ r <+: p ++ (r ++ [d]) :=
    (prefix_append_right_inj p).mpr (prefix_append r [d])
  have hr : (T.sub r).IsNode := isNode_sub_of_isPrefix h.isNode (prefix_append _ _)
  refine ⟨h.cleared.parent hinv hlen hsibling, hr, hpre.trans h.peer_isPrefix,
    hpre.trans h.key_isPrefix, fun a => ?_⟩
  rw [h.updated a, mem_iff_child hr.not_isLeaf a d, ← sub_concat, ← sub_concat, hsibling]
  simp

/-- What `unlinkChild` leaves behind when the leaf `c` takes the place of the unlinked node: the
node with the leaf, or, if nothing else is left in it, the leaf alone. -/
inductive Unlinked (hasher : Hasher) (p k : List Bool) (version : Version)
    (N : BatchedInternalNode) (T : LeafTrie) (c : LeafChild) :
    BatchedInternalNode × Option LeafChild → Prop
  | complete {N' : BatchedInternalNode} {T' : LeafTrie}
      (changed : Changed hasher p k none version N T N' T') (compact : T.Compact → T'.Compact)
      (safe : N'.safeToRemove = false) : Unlinked hasher p k version N T c (N', none)
  | promoted {N' : BatchedInternalNode} (noChildren : NoChildren N')
      (updated : Trie.Updated keyBits k none T (.leaf c)) :
      Unlinked hasher p k version N T c (N', some c)

section

variable (version) (hinv : NodeInv hasher p N T) (h : Alone p k N T (r ++ [d]) peer N₁)
  (hlen : (r ++ [d]).length ≤ 4) (hself : N₁.slot (r ++ [d]) = some (.leaf peer))
  (hsibling : T.sub (r ++ [!d]) ≠ .empty)

include hinv h hlen hself hsibling

/-- A leaf put at a cleared position beside another child ends the operation. -/
theorem changed_of_alone :
    ∃ N' T', N₁.updateHashes hasher (idx (r ++ [d])) version = .ok N' ∧
      Changed hasher p k none version N T N' T' ∧ (T.Compact → T'.Compact) ∧
      N'.slot (r ++ [d]) = some (.leaf peer) := by
  have htwo : Trie.Two (.leaf peer) (T.sub (r ++ [!d])) := .inl ⟨by simp, hsibling⟩
  obtain ⟨N', hN', hchanged⟩ := changed_of_put version hinv hlen
    (fun q' hq' hpre hpre' => h.cleared.beside q' hq'
      (fun h' => hpre' ((prefix_concat_iff.mp h').elim (fun heq => heq ▸ prefix_rfl)
        fun h'' => absurd h'' hpre)) hpre')
    (by rw [hself]; exact matches_leaf.mpr rfl) h.cleared.below
    (fun q' hq' => by
      rw [h.cleared.above q' (hq'.trans (prefix_append _ _)) (ne_concat_of_isPrefix hq')]
      exact hinv.not_isLeaf_of_isNode h.isNode hlen (hq'.trans (prefix_append _ _)))
    (not_isNode_leaf peer) h.peer_isPrefix (fun _ => htwo) (open_of_isNode h.isNode)
    h.key_isPrefix h.updated
  refine ⟨N', _, hN', hchanged, fun hcompact => hcompact.replace (compact_leaf peer) ?_, ?_⟩
  · intro r' b' heq
    obtain ⟨rfl, rfl⟩ : r = r' ∧ d = b' := by simpa using heq
    exact htwo
  · have hfull := hchanged.full _ hlen
    rwa [sub_replace_self, matches_leaf] at hfull

theorem unlinked_of_sibling :
    ∃ N', N₁.updateHashes hasher (idx (r ++ [d])) version = .ok N' ∧
      Unlinked hasher p k version N T peer (N', none) := by
  obtain ⟨N', T', hN', hchanged, hcompact, hslot⟩ :=
    changed_of_alone version hinv h hlen hself hsibling
  exact ⟨N', hN', .complete hchanged hcompact (not_safeToRemove hlen (by rw [hslot]; rfl))⟩

end

/-- What the removal of a leaf of the version `v` from the node with the trie `T` leaves behind. -/
inductive Removed (hasher : Hasher) (p k : List Bool) (version : Version) (depth : ℕ) (v : Version)
    (N : BatchedInternalNode) (T : LeafTrie) : BatchedInternalNode × RemoveResult → Prop
  | complete {N' : BatchedInternalNode} {T' : LeafTrie}
      (changed : Changed hasher p k none version N T N' T')
      (compact : depth ≠ 0 → T'.Compact) (inhabited : ∃ a, a ∈ T') :
      Removed hasher p k version depth v N T (N', .removeComplete v)
  | promoted {N' : BatchedInternalNode} {peer : LeafChild}
      (hdepth : depth ≠ 0) (noChildren : NoChildren N')
      (updated : Trie.Updated keyBits k none T (.leaf peer)) : Removed hasher p k version depth v N T
        (N', .removeBatchedInternalNode (some peer) v)
  | last {N' : BatchedInternalNode} (hdepth : depth = 0)
      (safe : N'.safeToRemove = true) (updated : Trie.Updated keyBits k none T .empty) :
      Removed hasher p k version depth v N T (N', .removeBatchedInternalNode none v)

/-- The last leaf of the tree stays below its root. -/
theorem changed_of_last (version : Version) (hclear : Cleared N [] N₁)
    (hroot : isLeaf (N₁.slot []) = false) (hpeer : p ++ [b] <+: keyBits peer)
    (hupdated : Trie.Updated keyBits k none T (.leaf peer)) :
    ∃ N' T', (N₁.put [b] (some (.leaf peer))).updateHashes hasher (idx [b]) version = .ok N' ∧
      Changed hasher p k none version N T N' T' := by
  have hb : [b].length ≤ 4 := by simp
  have hoff : ∀ q', q'.length ≤ 4 → ¬ q' <+: [] →
      Matches hasher ((N₁.put [b] (some (.leaf peer))).slot q')
        ((branch b (.leaf peer) .empty).sub q') := by
    intro q' hq' hpre
    rcases q' with _ | ⟨b', q'⟩
    · exact absurd prefix_rfl hpre
    · by_cases heq : b' :: q' = [b]
      · rw [heq, slot_put_self hb, sub_cons, child_branch]
        exact matches_leaf.mpr rfl
      · rw [slot_put_ne heq, hclear.below _ hq' nil_prefix (by simp), sub_cons]
        rcases Bool.eq_or_eq_not b' b with rfl | rfl
        · rw [child_branch, sub_leaf (by simpa using heq)]
          trivial
        · rw [child_branch_not, sub_empty]
          trivial
  have habove : ∀ q', q' <+: [] → ((branch b (.leaf peer) .empty).sub q').IsNode ∧
      isLeaf ((N₁.put [b] (some (.leaf peer))).slot q') = false := by
    intro q' hq'
    rw [prefix_nil.mp hq', slot_put_ne (by simp)]
    exact ⟨isNode_branch _ _ _, hroot⟩
  obtain ⟨N', hN', hfull, -, hversion⟩ := updateHashes_spec (q := []) version hb hoff habove
  refine ⟨N', _, hN', hfull, isNode_branch _ _ _, hversion, ?_, fun b' => ?_, fun a => ?_,
    fun y hy => ?_⟩
  · rw [placed_branch]
    exact ⟨hpeer, trivial⟩
  · rcases Bool.eq_or_eq_not b' b with rfl | rfl
    · rw [child_branch]
      exact compact_leaf peer
    · rw [child_branch_not]
      exact compact_empty
  · rw [← hupdated a, mem_branch]
    simp
  · -- no node below the root
    obtain ⟨b', q', hbits⟩ := exists_cons_of_length_pos
      (show 0 < y.bits.length by rw [y.length_bits]; omega)
    rw [hbits, sub_cons] at hy
    rcases Bool.eq_or_eq_not b' b with rfl | rfl
    · rw [child_branch] at hy
      exact absurd hy (not_isNode_sub (not_isNode_leaf peer) q')
    · rw [child_branch_not] at hy
      exact absurd hy (not_isNode_sub not_isNode_empty q')

theorem inhabited_of_updated (hupdated : Trie.Updated keyBits k none (T.sub r) (.leaf peer))
    (hupdated' : Trie.Updated keyBits k none T T') : ∃ a, a ∈ T' := by
  have hpeer := ((hupdated peer).mp rfl).resolve_left (by simp)
  exact ⟨peer, (hupdated' peer).mpr (.inr ⟨mem_of_mem_sub hpeer.1, hpeer.2⟩)⟩

/-- The loop of `removeLeafChild`, from a child of the position `r` upwards. -/
theorem movePeerUp_spec {removedVersion : Version}
    (hinv : NodeInv hasher p N T) (hlen : (r ++ [d]).length ≤ 4) (h : Alone p k N T r peer N₁)
    (hself : isLeaf (N₁.slot r) = false) (hpeer : p ++ (r ++ [d]) <+: keyBits peer)
    (hcompact : depth ≠ 0 → T.Compact) :
    ∃ result, N₁.movePeerUp hasher peer version removedVersion depth (idx (r ++ [d])) =
      .ok result ∧ Removed hasher p k version depth removedVersion N T result := by
  induction r using List.reverseRecOn generalizing N₁ d with
  | nil =>
    rw [movePeerUp, dif_neg (idx_concat_ne_zero _ d), parentIndex_idx, idx_nil, peerIndex,
      if_pos rfl, ok_bind, isSome_none, if_neg (by simp)]
    rw [nil_append] at hlen hpeer ⊢
    by_cases hdepth : depth = 0
    · obtain ⟨N', T', hN', hchanged⟩ :=
        changed_of_last version h.cleared hself hpeer h.updated
      rw [if_pos ⟨rfl, hdepth⟩, set_idx hlen, ok_bind, hN', ok_bind]
      exact ⟨_, rfl, .complete hchanged (fun h => absurd hdepth h)
        (inhabited_of_updated (r := []) h.updated hchanged.updated)⟩
    · rw [if_neg (by simp [hdepth]), ← idx_nil, set_idx (q := []) (Nat.zero_le 4), ok_bind,
        movePeerUp, dif_pos idx_nil]
      exact ⟨_, rfl, .promoted hdepth h.cleared.noChildren h.updated⟩
  | append_singleton r e ih =>
    have hrlen : (r ++ [e]).length ≤ 4 := (by simp : _ ≤ (r ++ [e] ++ [d]).length).trans hlen
    have hsib : (r ++ [!e]).length ≤ 4 := by simpa using hrlen
    have hmatch := hinv.slots (r ++ [!e]) (by simp) hsib
    rw [movePeerUp, dif_neg (idx_concat_ne_zero _ d), parentIndex_idx, peerIndex_idx hrlen, ok_bind,
      h.cleared.sibling hrlen]
    by_cases hsibling : T.sub (r ++ [!e]) = .empty
    · rw [hsibling, matches_empty] at hmatch
      rw [hmatch, isNone_none, if_pos rfl, isSome_none, if_neg (by simp),
        if_neg fun h => idx_concat_ne_zero r e h.1, set_idx hrlen, ok_bind]
      have hself' : isLeaf ((N₁.put (r ++ [e]) none).slot r) = false := by
        rw [slot_put_ne (ne_concat_of_isPrefix prefix_rfl), h.cleared.above r
          (prefix_append _ _) (ne_concat_of_isPrefix prefix_rfl)]
        exact hinv.not_isLeaf_of_isNode h.isNode hrlen (prefix_append _ _)
      exact ih hrlen (h.parent hinv hrlen hsibling) hself' h.peer_isPrefix
    · rw [hmatch.isNone_eq_false hsibling]
      simp only [Bool.false_eq_true, ↓reduceIte, isSome_some]
      rw [set_idx hrlen, ok_bind]
      obtain ⟨N', T', hN', hchanged, hcompact', -⟩ := changed_of_alone version hinv
        { h with cleared := h.cleared.put _ } hrlen (slot_put_self hrlen _) hsibling
      rw [hN', ok_bind]
      exact ⟨_, rfl, .complete hchanged (fun h => hcompact' (hcompact h))
        (inhabited_of_updated h.updated hchanged.updated)⟩

/-! ## Removal -/

theorem removeLeafChild_last {removedVersion : Version}
    (hinv : NodeInv hasher p N T) (hroot : N.slot [] ≠ none) (hstop : StopsAt T x q b)
    (hsub : T.sub (q ++ [b]) = .leaf a) (hkey : keyBits a = k)
    (hsibling : T.sub (q ++ [!b]) = .empty) (hcompact : depth ≠ 0 → T.Compact) :
    ∃ result, N.removeLeafChild hasher (idx (q ++ [b])) version removedVersion depth = .ok result ∧
      Removed hasher p k version depth removedVersion N T result := by
  have hlen := hstop.length_le
  have hsiblen : (q ++ [!b]).length ≤ 4 := by simpa using hlen
  have htwo : ¬ Trie.Two (T.sub (q ++ [b])) (T.sub (q ++ [!b])) := by
    rw [hsub, hsibling]
    rintro (h | h | h)
    · exact h.2 rfl
    · exact h
    · exact h
  -- a leaf without a sibling is a child of the root of the tree
  obtain rfl : q = [] := by
    by_contra hq
    exact htwo (hinv.compact.two hq (hstop.above q prefix_rfl hq) b)
  have hnode : T.IsNode := isNode_sub_of_ne_empty (q := []) (cons_ne_nil b [])
    (by rw [nil_append] at hsub ⊢; rw [hsub]; simp)
  have hdepth : depth = 0 := by
    by_contra hdepth
    exact htwo ((hcompact hdepth).two hnode b)
  rw [nil_append] at hsub hsibling hlen hsiblen ⊢
  have hbeside : ∀ q', q' ≠ [] → q'.length ≤ 4 → (N.put [b] none).slot q' = none := by
    intro q' hne hq'
    by_cases heq : q' = [b]
    · rw [heq, slot_put_self hlen]
    · rw [slot_put_ne heq]
      have hmatch := hinv.slots q' hne hq'
      have hempty : T.sub q' = .empty := by
        rcases q' with _ | ⟨b', q'⟩
        · exact absurd rfl hne
        · rw [← singleton_append, sub_append]
          rcases Bool.eq_or_eq_not b' b with rfl | rfl
          · rw [hsub, sub_leaf (by simpa using heq)]
          · rw [hsibling, sub_empty]
      rwa [hempty, matches_empty] at hmatch
  have hroot' : (N.put [b] none).slot [] = N.slot [] := slot_put_ne (by simp) _
  have hpeer : (N.put [b] none).peerIndex (idx [b]) = .ok none := by
    have h := peerIndex_idx (N := N.put [b] none) (q := []) (b := b) hlen
    rwa [nil_append, nil_append, hbeside [!b] (by simp) hsiblen, isNone_none, if_pos rfl] at h
  have hupdate := updateHashes_concat hasher version (N := N.put [b] none) (q := []) (b := b) hlen
    (by rw [hroot']; exact hinv.root)
  rw [if_pos rfl, nil_append] at hupdate
  have hindex : idx [b] ≠ 0 := idx_concat_ne_zero [] b
  rw [removeLeafChild, if_neg hindex, set_idx hlen, ok_bind, hpeer, ok_bind]
  dsimp only
  rw [numChildren_root hbeside (by rwa [hroot']), if_pos rfl, hupdate, ok_bind]
  refine ⟨_, rfl, .last hdepth (safeToRemove_root (fun q' hne hq' => ?_) ?_) fun a' => ?_⟩
  · rw [slot_put_ne hne]
    exact hbeside q' hne hq'
  · rw [slot_put_self (q := []) (Nat.zero_le 4)]
    rfl
  · rw [mem_iff_child hinv.notLeaf a' b, show T.child b = .leaf a from hsub,
      show T.child (!b) = .empty from hsibling]
    simp only [mem_empty, mem_leaf, or_false, false_iff, reduceCtorEq, false_or]
    rintro ⟨rfl, h⟩
    exact h hkey

theorem cleared_of_leaves (hinv : NodeInv hasher p N T) (hlen : (q ++ [b]).length ≤ 4)
    (hleft : ¬ (T.sub (q ++ [b])).IsNode) (hright : ¬ (T.sub (q ++ [!b])).IsNode) :
    Cleared N q ((N.put (q ++ [b]) none).put (q ++ [!b]) none) ∧
      ((N.put (q ++ [b]) none).put (q ++ [!b]) none).slot q = N.slot q := by
  have hsiblen : (q ++ [!b]).length ≤ 4 := by simpa using hlen
  have hsame : ∀ q', q' ≠ q ++ [b] → q' ≠ q ++ [!b] →
      ((N.put (q ++ [b]) none).put (q ++ [!b]) none).slot q' = N.slot q' := by
    intro q' hne hne'
    rw [slot_put_ne hne', slot_put_ne hne]
  have habove : ∀ q', q' <+: q →
      ((N.put (q ++ [b]) none).put (q ++ [!b]) none).slot q' = N.slot q' := fun q' hpre =>
    hsame q' (ne_concat_of_isPrefix hpre) (ne_concat_of_isPrefix hpre)
  refine ⟨⟨fun q' _ _ hpre => ?_, fun q' hq' hpre hne => ?_, fun q' hpre _ => habove q' hpre⟩,
    habove q prefix_rfl⟩
  · refine hsame q' ?_ ?_ <;>
    · rintro rfl
      exact hpre (prefix_append _ _)
  · obtain ⟨q'', rfl⟩ := hpre
    by_cases hb : q ++ q'' = q ++ [b]
    · rw [hb, slot_put_ne (by simp), slot_put_self hlen]
    by_cases hb' : q ++ q'' = q ++ [!b]
    · rw [hb', slot_put_self hsiblen]
    rw [hsame _ hb hb']
    -- strictly below one of the two children
    rcases q'' with _ | ⟨d, q''⟩
    · exact absurd (append_nil q) hne
    · have hpre : q ++ [d] <+: q ++ d :: q'' := ⟨q'', by simp⟩
      rcases Bool.eq_or_eq_not d b with rfl | rfl
      · exact (hinv.slot_below hleft hq' hpre hb).2
      · exact (hinv.slot_below hright hq' hpre hb').2

theorem updated_of_peer (hnode : (T.sub q).IsNode)
    (hsub : T.sub (q ++ [b]) = .leaf a) (hkey : keyBits a = k)
    (hsibling : T.sub (q ++ [!b]) = .leaf peer) (hpeer : p ++ (q ++ [!b]) <+: keyBits peer)
    (hk : p ++ (q ++ [b]) <+: k) : Trie.Updated keyBits k none (T.sub q) (.leaf peer) := by
  have hne : keyBits peer ≠ k := by
    rintro rfl
    rw [← append_assoc] at hpeer hk
    exact not_prefix_of_ne hk (by simp) hpeer
  intro a'
  rw [mem_iff_child hnode.not_isLeaf a' b, ← sub_concat, ← sub_concat, hsub, hsibling]
  simp only [mem_leaf, reduceCtorEq, false_or]
  constructor
  · rintro rfl
    exact ⟨.inr rfl, hne⟩
  · rintro ⟨rfl | rfl, h⟩
    · exact absurd hkey h
    · rfl

theorem removeLeafChild_spec (removedVersion : Version) (hinv : NodeInv hasher p N T)
    (hroot : N.slot [] ≠ none) (hstop : StopsAt T x q b) (hsub : T.sub (q ++ [b]) = .leaf a)
    (hkey : keyBits a = k) (hx : p ++ x.bits <+: k) (hcompact : depth ≠ 0 → T.Compact) :
    ∃ result, N.removeLeafChild hasher (idx (q ++ [b])) version removedVersion depth = .ok result ∧
      Removed hasher p k version depth removedVersion N T result := by
  have hlen := hstop.length_le
  have hsiblen : (q ++ [!b]).length ≤ 4 := by simpa using hlen
  have hne : q ++ [!b] ≠ q ++ [b] := by simp
  have hmatch := hinv.slots (q ++ [!b]) (by simp) hsiblen
  have hk := hstop.isPrefix_key hx
  have hqlen : q.length ≤ 4 := (by simp : q.length ≤ (q ++ [b]).length).trans hlen
  have habove : ∀ q', q' <+: q → isLeaf (N.slot q') = false := fun q' hq' =>
    hinv.not_isLeaf_above hstop.above hqlen hq'
  cases hsibling : T.sub (q ++ [!b]) with
  | empty => exact removeLeafChild_last hinv hroot hstop hsub hkey hsibling hcompact
  | node l r =>
    have hnode : (T.sub (q ++ [!b])).IsNode := by
      rw [hsibling]
      trivial
    obtain ⟨v, hv⟩ := (matches_of_isNode hnode).mp hmatch
    obtain ⟨internal, hinternal, hiff⟩ := isInternal_idx (N := N.put (q ++ [b]) none) hsiblen
      (by rw [slot_put_ne hne]; exact hmatch)
    have htwo : Trie.Two .empty (T.sub (q ++ [!b])) := .inr (.inr hnode)
    obtain ⟨N', hN', hchanged⟩ := changed_of_put_child (o := none) version hinv hstop hx
      (matches_empty.mpr rfl) not_isNode_empty trivial (fun _ => htwo) fun a' => by
        rw [hsub]
        simp only [mem_empty, mem_leaf, false_iff, reduceCtorEq, false_or]
        rintro ⟨rfl, h⟩
        exact h hkey
    rw [removeLeafChild, if_neg (idx_concat_ne_zero q b), set_idx hlen, ok_bind,
      peerIndex_idx hlen, slot_put_ne hne, hv, isNone_some, if_neg (by simp), ok_bind]
    dsimp only
    rw [hinternal, ok_bind, hiff.mpr hnode, if_pos rfl, hN', ok_bind]
    refine ⟨_, rfl, .complete hchanged (fun h => ?_) ?_⟩
    · refine (hcompact h).replace compact_empty fun r' b' heq => ?_
      obtain ⟨rfl, rfl⟩ : q = r' ∧ b = b' := by simpa using heq
      exact htwo
    · obtain ⟨a', ha'⟩ := exists_mem_of_compact (hinv.compact.sub (q := q ++ [!b]) (by simp))
        (by rw [hsibling]; simp)
      have hpre := (hinv.placed.sub (q ++ [!b])).prefix_bits ha'
      refine ⟨a', (hchanged.updated a').mpr (.inr ⟨mem_of_mem_sub ha', ?_⟩)⟩
      rintro rfl
      rw [← append_assoc] at hpre hk
      exact not_prefix_of_ne hk (by simp) hpre
  | leaf peer =>
    rw [hsibling, matches_leaf] at hmatch
    have hslot : (N.put (q ++ [b]) none).slot (q ++ [!b]) = some (.leaf peer) := by
      rw [slot_put_ne hne, hmatch]
    have hmatch' : Matches hasher ((N.put (q ++ [b]) none).slot (q ++ [!b])) (.leaf peer) := by
      rw [hslot]
      exact matches_leaf.mpr rfl
    obtain ⟨internal, hinternal, hiff⟩ := isInternal_idx hsiblen hmatch'
    have hfalse : ¬ internal = true := fun h => not_isNode_leaf peer (hiff.mp h)
    have hnode : (T.sub q).IsNode :=
      isNode_sub_of_ne_empty (cons_ne_nil b []) (by rw [hsub]; simp)
    have hclear := cleared_of_leaves hinv hlen hstop.stop (hsibling ▸ not_isNode_leaf peer)
    have hself : isLeaf (((N.put (q ++ [b]) none).put (q ++ [!b]) none).slot q) = false := by
      rw [hclear.2]
      exact habove q prefix_rfl
    have hpeer : p ++ (q ++ [!b]) <+: keyBits peer := by
      have h := hinv.placed.sub (q ++ [!b])
      rwa [hsibling, placed_leaf] at h
    have hpre : ∀ q q' : List Bool, p ++ q <+: p ++ (q ++ q') := fun q q' =>
      (prefix_append_right_inj p).mpr (prefix_append q q')
    rw [removeLeafChild, if_neg (idx_concat_ne_zero q b), set_idx hlen, ok_bind,
      peerIndex_idx hlen, hslot, isNone_some, if_neg (by simp), ok_bind]
    dsimp only
    rw [hinternal, ok_bind, if_neg hfalse, getLeaf_idx hsiblen hslot, ok_bind, set_idx hsiblen,
      ok_bind]
    exact movePeerUp_spec hinv hsiblen ⟨hclear.1, hnode, (hpre q _).trans hpeer, (hpre q _).trans hk,
      updated_of_peer hnode hsub hkey hsibling hpeer hk⟩ hself hpeer hcompact

variable (version : Version) (hinv : NodeInv hasher p N T)

include hinv

/-- `remove` does not find the key, goes on to the node below, or removes the leaf. -/
theorem remove_spec {key : Hash} (hroot : T ≠ .empty → N.slot [] ≠ none)
    (hx : p ++ x.bits <+: key.bits)
    (hnibble : key.getNibble depth = .ok x) (hcompact : depth ≠ 0 → T.Compact) :
    (N.remove hasher key depth version = .ok (N, .notFound) ∧ ∀ a ∈ T, keyBits a ≠ key.bits) ∨
    (∃ c, N.remove hasher key depth version = .ok (N, .descend c.version) ∧
      N.slot x.bits = some (.internal c)) ∨
    ∃ result, N.remove hasher key depth version = .ok result ∧
      ∃ v, Removed hasher p key.bits version depth v N T result ∧
        StaleLeaf T key.bits (some ⟨key, v⟩) ∧ ¬ (T.sub x.bits).IsNode := by
  unfold remove
  rw [hnibble, ok_bind]
  rcases hinv.search hx with ⟨q, b, hstop, hfind, ⟨-, hempty, hmem⟩ |
    ⟨a, ha, hsub, hempty, hleaf, hmem⟩⟩ | ⟨c, hfind, hlink, hslot⟩
  · rw [hfind, ok_bind]
    dsimp only
    rw [if_neg (by simp), hempty, ok_bind, if_pos rfl]
    exact .inl ⟨rfl, hmem⟩
  · rw [hfind, ok_bind]
    dsimp only
    rw [if_neg (by simp), hempty, ok_bind, if_neg (by simp), hleaf, ok_bind]
    have hne : T ≠ .empty := by
      rintro rfl
      rw [sub_empty] at hsub
      cases hsub
    split_ifs with hkey
    · obtain ⟨result, hresult, hremoved⟩ := removeLeafChild_spec a.key.version
        hinv (hroot hne) hstop hsub (congrArg Hash.bits hkey) hx hcompact
      have hstale := staleLeaf_some ha (congrArg Hash.bits hkey) hmem
      rw [show a.key = ⟨key, a.key.version⟩ by rw [← hkey]] at hstale
      exact .inr (.inr ⟨result, hresult, _, hremoved, hstale, hstop.not_isNode⟩)
    · refine .inl ⟨rfl, fun a' ha' heq => hkey ?_⟩
      obtain rfl := hmem a' ha' heq
      exact Hash.bits_injective heq
  · rw [hfind, ok_bind]
    dsimp only
    rw [if_pos rfl, hlink, ok_bind]
    exact .inr (.inl ⟨_, rfl, hslot⟩)

/-! ## Unlinking a node -/

/-- The loop of `unlinkChild`, from the position `r` upwards. -/
theorem unlinkLoop_spec (hlen : r.length ≤ 4)
    (h : Alone p k N T r peer N₁) (hself : N₁.slot r = some (.leaf peer)) :
    ∃ result, N₁.unlinkLoop hasher version (idx r) = .ok result ∧
      Unlinked hasher p k version N T peer result := by
  induction r using List.reverseRecOn generalizing N₁ with
  | nil =>
    have hnone := h.cleared.noChildren
    rw [unlinkLoop, dif_pos idx_nil, get_idx hlen, hself, ok_bind]
    dsimp only
    rw [getLeaf_idx hlen hself, ok_bind, set_idx hlen, ok_bind, if_pos hnone.numChildren]
    exact ⟨_, rfl, .promoted hnone h.updated⟩
  | append_singleton r d ih =>
    have hsib : (r ++ [!d]).length ≤ 4 := by simpa using hlen
    have hrlen : r.length ≤ 4 := (by simp : r.length ≤ (r ++ [d]).length).trans hlen
    have hmatch := hinv.slots (r ++ [!d]) (by simp) hsib
    rw [unlinkLoop, dif_neg (idx_concat_ne_zero r d), get_idx hlen, hself, ok_bind,
      peerIndex_idx hlen, h.cleared.sibling hlen, ok_bind]
    by_cases hsibling : T.sub (r ++ [!d]) = .empty
    · rw [hsibling, matches_empty] at hmatch
      rw [hmatch, isNone_none, if_pos rfl]
      dsimp only
      have hne : r ++ [d] ≠ r := by simp
      rw [parentIndex_idx, set_idx hrlen, ok_bind, set_idx hlen, ok_bind, put_comm hne]
      have hparent := h.parent hinv hlen hsibling
      exact ih hrlen { hparent with cleared := hparent.cleared.put _ } (slot_put_self hrlen _)
    · obtain ⟨N', hN', hunlinked⟩ := unlinked_of_sibling version hinv h hlen hself hsibling
      obtain ⟨internal, hinternal, -⟩ := isInternal_idx (N := N₁) hsib
        (by rw [h.cleared.sibling hlen]; exact hmatch)
      rw [hmatch.isNone_eq_false hsibling, if_neg Bool.false_ne_true]
      dsimp only
      rw [hinternal, ok_bind, isSome_some, Bool.true_or, if_pos rfl, hN', ok_bind]
      exact ⟨_, rfl, hunlinked⟩

/-- The leaf that is left of the node below the nibble takes its place. -/
theorem unlinkChild_spec (hnode : (T.sub x.bits).IsNode) (hpeer : p ++ x.bits <+: keyBits peer)
    (hk : p ++ x.bits <+: k) (hupdated : Trie.Updated keyBits k none (T.sub x.bits) (.leaf peer)) :
    ∃ result, N.unlinkChild hasher x version (some peer) = .ok result ∧
      Unlinked hasher p k version N T peer result := by
  have hx := x.length_bits.le
  have hclear : Cleared N x.bits (N.put x.bits (some (.leaf peer))) := by
    refine ⟨fun q' _ hpre _ => slot_put_of_not_isPrefix prefix_rfl hpre _, ?_,
      fun q' _ hne => slot_put_ne hne _⟩
    intro q' hq' hpre hne
    exact absurd (hpre.eq_of_length_le (by rw [x.length_bits]; exact hq')).symm hne
  have hself := slot_put_self (N := N) hx (some (.leaf peer))
  obtain ⟨r, d, hrd⟩ : ∃ r d, x.bits = r ++ [d] :=
    ⟨_, _, (dropLast_append_getLast x.bits_ne_nil).symm⟩
  rw [unlinkChild, nibbleToIndex_eq, map_some, set_idx hx, ok_bind]
  have halone : Alone p k N T x.bits peer _ := ⟨hclear, hnode, hpeer, hk, hupdated⟩
  rw [hrd] at hx hclear hself halone ⊢
  have hsib : (r ++ [!d]).length ≤ 4 := by simpa using hx
  have hmatch := hinv.slots (r ++ [!d]) (by simp) hsib
  rw [peerIndex_idx hx, hclear.sibling hx, ok_bind]
  by_cases hsibling : T.sub (r ++ [!d]) = .empty
  · rw [hsibling, matches_empty] at hmatch
    rw [hmatch, isNone_none, if_pos rfl, isSome_none, Bool.false_and, if_neg (by simp)]
    exact unlinkLoop_spec version hinv hx halone hself
  · obtain ⟨N', hN', hunlinked⟩ := unlinked_of_sibling version hinv halone hx hself hsibling
    rw [hmatch.isNone_eq_false hsibling]
    simp only [Bool.false_eq_true, ↓reduceIte, isSome_some, Bool.and_self]
    rw [hN', ok_bind]
    exact ⟨_, rfl, hunlinked⟩

end BatchedInternalNode

end ConcordBft.SparseMerkle
