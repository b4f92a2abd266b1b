import ConcordBft.SparseMerkle.TreeInsert

/-!
# Removal from the tree

The walker goes down to the leaf. If the node stays, it is linked again on the way up; if only one
leaf is left of it, the node is removed and the leaf is handed to the node above, possibly several
times.
-/

namespace ConcordBft.SparseMerkle

open Verif Verif.Exec BatchedInternalNode Trie UpdateCache List

variable {hasher : Hasher} {P R : NibblePath} {N N' : BatchedInternalNode} {T T' S : LeafTrie}
  {x y : Nibble} {k : List Bool} {a : LeafChild} {cache : UpdateCache} {key : Hash}

/-! ## Nodes without children -/

/-- If at most one leaf is left, only the nibble of the removed key can have had a link. -/
theorem not_isNode_of_updated {p : List Bool} (hinv : NodeInv hasher p N T)
    (hupdated : Trie.Updated keyBits k none T T') (hone : ∀ a ∈ T', ∀ b ∈ T', a = b)
    (hx : p ++ x.bits <+: k) (hy : y ≠ x) : ¬ (T.sub y.bits).IsNode := by
  intro hnode
  have hplaced := hinv.placed.sub y.bits
  obtain ⟨a, ha, b, hb, hne⟩ := exists_two_of_compact hplaced
    (hinv.compact.sub y.bits_ne_nil) hnode
  have hkept : ∀ c ∈ T.sub y.bits, c ∈ T' := by
    intro c hc
    refine (hupdated c).mpr (.inr ⟨mem_of_mem_sub hc, fun heq => ?_⟩)
    refine not_isPrefix_of_ne hx hy ?_
    rw [← heq]
    exact hplaced.prefix_bits hc
  exact hne (congrArg keyBits (hone a (hkept a ha) b (hkept b hb)))

namespace Walker

variable {w w' w₁ w₁' : Walker}

/-! ## Removing a node -/

/-- The cache after the current node has been removed. -/
def removed (w : Walker) : UpdateCache :=
  (w.cache.marked w.staleVersion w.nibblePath).remove w.nibblePath

theorem same_removed (w : Walker) : w.cache.Same w.removed :=
  (same_marked _ _).trans ⟨rfl, rfl, rfl⟩

theorem lookup_removed_of_ne (h : R ≠ w.nibblePath) :
    w.removed.internalNodes.lookup R = w.cache.internalNodes.lookup R := by
  rw [← w.cache.internalNodes_marked]
  exact AList.lookup_erase_ne h

theorem leaves_removed (w : Walker) : w.Leaves w.removed :=
  ⟨w.same_removed, fun _ => lookup_removed_of_ne, rfl⟩

variable {stack : List BatchedInternalNode} {v : Version}

theorem removeCurrentNode_eq (hpath : w.nibblePath = P ++ [x]) (hstack : w.stack = N :: stack)
    (hversion : N.version = .ok v) :
    w.removeCurrentNode = .ok (⟨v, w.removed, stack, N, P⟩, some x) := by
  have hpop := pop_eq (w := { w with cache := w.removed }) hpath hstack hversion
  have hroot : ({ w with cache := w.removed } : Walker).atRoot = false := by
    rw [atRoot, hpath]
    simp
  rw [removeCurrentNode, markCurrentNodeStale_eq]
  change (if ({ w with cache := w.removed } : Walker).atRoot then _
    else ({ w with cache := w.removed } : Walker).pop >>= _) = _
  rw [hroot, if_neg (by simp), hpop, ok_bind]

/-- One step of `removeBatchedInternalNode`: the node is removed and unlinked from its parent. -/
theorem removeBatchedInternalNode_step {promoted promoted' : Option LeafChild}
    (hpath : w.nibblePath = P ++ [x]) (hstack : w.stack = N :: stack) (hversion : N.version = .ok v)
    (hsafe : w.currentNode.safeToRemove = true)
    (hunlink : N.unlinkChild hasher x w.version promoted = .ok (N', promoted')) :
    removeBatchedInternalNode hasher w promoted =
      removeBatchedInternalNode hasher ⟨v, w.removed, stack, N', P⟩ promoted' := by
  have hdepth : w.depth = P.length + 1 := by
    rw [depth, hpath, length_append, length_singleton]
  have hunlink' : N.unlinkChild hasher x w.removed.version promoted = .ok (N', promoted') := by
    rw [w.same_removed.version]
    exact hunlink
  rw [removeBatchedInternalNode, hdepth, unlinkEmptyNodes, if_pos hsafe,
    removeCurrentNode_eq hpath hstack hversion, ok_bind]
  dsimp only [Walker.version]
  rw [hunlink', ok_bind]
  rfl

theorem removeBatchedInternalNode_stay (hsafe : w.currentNode.safeToRemove = false) :
    removeBatchedInternalNode hasher w none = w.ascendToRoot hasher none := by
  have hloop : unlinkEmptyNodes hasher w.depth w none = .ok (w, none) := by
    cases w.depth with
    | zero => rfl
    | succ n => rw [unlinkEmptyNodes, hsafe, if_neg (by simp)]
  rw [removeBatchedInternalNode, hloop, ok_bind]
  dsimp only
  rw [hsafe, Bool.and_false, if_neg (by simp)]

/-! ## Emptied subtrees -/

/-- The walker has taken all leaves but one out of the subtree; the current node is empty, and no
node below it is left. -/
structure Emptied (w w' : Walker) : Prop extends Returned w w' where
  noChildren : NoChildren w'.currentNode
  cached : ∀ R x, w.nibblePath ++ [x] <+: R → w'.cache.internalNodes.lookup R = none

section Unlink

variable (henter : Entered w w.currentNode x w₁) (hemptied : Emptied w₁ w₁')

include henter hemptied

theorem Entered.lookup_removed (hR : w.nibblePath ++ [x] <+: R) :
    w₁'.removed.internalNodes.lookup R = none := by
  have hpath := henter.path_returned hemptied.toReturned
  by_cases hself : R = w.nibblePath ++ [x]
  · rw [hself, ← hpath]
    exact AList.lookup_erase _ _
  · obtain ⟨z, hz⟩ := exists_nibble_of_isPrefix hR hself
    rw [lookup_removed_of_ne (by rwa [hpath])]
    exact hemptied.cached R z (by rwa [henter.path])

theorem Entered.returned_removed (hlink : ∀ y, y ≠ x → SameLink w.currentNode N' y)
    (hx : ∀ c, N'.slot x.bits ≠ some (.internal c)) :
    Returned w ⟨w.staleVersion, w₁'.removed, w.stack, N', w.nibblePath⟩ := by
  refine henter.returned hemptied.toReturned w₁'.leaves_removed hlink (fun _ => False.elim)
    fun k => iff_of_false (not_reachAt hx) ?_
  rintro (h | h)
  · exact h
  · obtain ⟨y, c, hslot, -⟩ := reach_iff.mp h
    exact not_slot_of_noChildren hemptied.noChildren y c hslot

theorem Entered.moved_removed (hsub : Subtree hasher w.cache w.nibblePath w.currentNode T)
    (hlink : ∀ y, y ≠ x → SameLink w.currentNode N' y)
    (hsubs : ∀ y : Nibble, y ≠ x → (T'.sub y.bits).IsNode → T'.sub y.bits = T.sub y.bits)
    (hx : ¬ (T'.sub x.bits).IsNode) (hfull : Full hasher N' T') (hnode : T'.IsNode)
    (hversion : N'.version = .ok w.version) (hplaced : T'.Placed keyBits w.nibblePath.bits)
    (hcompact : T'.ChildrenCompact) :
    Moved hasher w ⟨w.staleVersion, w₁'.removed, w.stack, N', w.nibblePath⟩ T' where
  toReturned := henter.returned_removed hemptied hlink fun c hc =>
    hx ((hfull x.bits x.length_bits.le).isInternal hc)
  full := hfull
  isNode := hnode
  version := hversion
  subtree := by
    have hsame := henter.same hemptied.toReturned w₁'.leaves_removed
    refine ⟨by rw [hsame.version]; exact hsub.pos, nodeInv_of_full hfull hnode hplaced hcompact,
      fun y => ?_⟩
    by_cases hy : y = x
    · subst hy
      refine ⟨fun h => absurd h hx, fun R hR hsome => ?_⟩
      rw [henter.lookup_removed hemptied hR] at hsome
      cases hsome
    · refine (hsub.child y).congr hsame (hlink y hy) (hsubs y hy) fun R hR => ?_
      exact henter.lookup_beside hemptied.toReturned w₁'.leaves_removed fun h => hy (nibble_eq hR h)

theorem Entered.emptied_removed (hsub : Subtree hasher w.cache w.nibblePath w.currentNode T)
    (hnone : NoChildren N') (hother : ∀ y : Nibble, y ≠ x → ¬ (T.sub y.bits).IsNode) :
    Emptied w ⟨w.staleVersion, w₁'.removed, w.stack, N', w.nibblePath⟩ where
  toReturned := by
    refine henter.returned_removed hemptied (fun y hy c => ?_) (not_slot_of_noChildren hnone x)
    have hN' := not_slot_of_noChildren hnone y c
    have hN : w.currentNode.slot y.bits ≠ some (.internal c) := fun h =>
      hother y hy (hsub.isNode_of_slot h)
    simp [hN, hN']
  noChildren := hnone
  cached R y hR := by
    show w₁'.removed.internalNodes.lookup R = none
    by_cases hy : y = x
    · exact henter.lookup_removed hemptied (hy ▸ hR)
    · rw [henter.lookup_beside hemptied.toReturned w₁'.leaves_removed fun h => hy (nibble_eq hR h)]
      exact hsub.not_cached (hother y hy) hR

end Unlink

/-! ## The way down -/

/-- The stale leaf keys after the leaf with the bits `k` was removed. -/
def LeavesStale (k : List Bool) (w : Walker) (T : LeafTrie) (w' : Walker) : Prop :=
  ∀ l, l ∈ w'.cache.staleLeafKeys ↔
    l ∈ w.cache.staleLeafKeys ∨ ∃ a ∈ T, keyBits a = k ∧ a.key = l

/-- What is left to do after a removal below the walker. -/
inductive Outcome (hasher : Hasher) (key : Hash) (w : Walker) (T : LeafTrie) : Exec Walker → Prop
  | notFound {w' : Walker} (cache : w'.cache = w.cache) (none : ∀ a ∈ T, keyBits a ≠ key.bits) :
      Outcome hasher key w T (.ok w')
  | done {w' : Walker} {T' : LeafTrie} (done : Done hasher key.bits none w T w' T')
      (compact : w.depth ≠ 0 → T'.Compact) (inhabited : ∃ a, a ∈ T') :
      Outcome hasher key w T (w'.ascendToRoot hasher none)
  | emptied {w' : Walker} {a : LeafChild} (depth : w.depth ≠ 0) (emptied : Emptied w w')
      (updated : Trie.Updated keyBits key.bits none T (.leaf a))
      (leaves : LeavesStale key.bits w T w') :
      Outcome hasher key w T (removeBatchedInternalNode hasher w' (some a))
  | last {N' : BatchedInternalNode} {l : LeafKey} (depth : w.depth = 0)
      (safe : N'.safeToRemove = true) (updated : Trie.Updated keyBits key.bits none T .empty)
      (stale : StaleLeaf T key.bits (some l)) :
      Outcome hasher key w T (removeBatchedInternalNode hasher { w with
        cache := w.cache.putStaleLeaf (some l), currentNode := N' } none)

theorem outcome_of_removed {result : BatchedInternalNode × RemoveResult}
    (hsub : Subtree hasher w.cache w.nibblePath w.currentNode T)
    (hx : w.nibblePath.bits ++ x.bits <+: key.bits) (hnot : ¬ (T.sub x.bits).IsNode)
    (hstale : StaleLeaf T key.bits (some ⟨key, v⟩))
    (h : Removed hasher w.nibblePath.bits key.bits w.version w.depth v w.currentNode T result) :
    ∃ N' r, result = (N', r) ∧ ((∃ version, r = .removeComplete version ∧
        Outcome hasher key w T (ascendToRoot { w with currentNode := N' } hasher
          (some ⟨key, version⟩))) ∨
      ∃ promoted version, r = .removeBatchedInternalNode promoted version ∧
        Outcome hasher key w T (removeBatchedInternalNode hasher { w with
          cache := w.cache.putStaleLeaf (some ⟨key, version⟩), currentNode := N' } promoted)) := by
  cases h with
  | complete changed compact inhabited =>
    refine ⟨_, _, rfl, .inl ⟨v, rfl, ?_⟩⟩
    exact .done (done_of_changed hsub changed hx hnot hstale) compact inhabited
  | @promoted N' peer hdepth noChildren updated =>
    refine ⟨_, _, rfl, .inr ⟨_, v, rfl, ?_⟩⟩
    have hlinks : ∀ y : Nibble, ¬ (T.sub y.bits).IsNode := by
      intro y
      by_cases hy : y = x
      · rwa [hy]
      · refine not_isNode_of_updated hsub.inv updated (fun a ha b hb => ?_) hx hy
        exact ha.trans hb.symm
    have hsame := w.cache.same_putStaleLeaf (some ⟨key, v⟩)
    refine .emptied hdepth ⟨⟨rfl, rfl, rfl, hsame, fun R _ => rfl, ?_⟩,
      noChildren, fun R y hR => hsub.not_cached (hlinks y) hR⟩ updated
      fun l => by rw [mem_staleLeafKeys_putStaleLeaf, hstale l]
    refine staleStep_of_sameLink hsame rfl rfl fun y c => ?_
    have hN' := not_slot_of_noChildren noChildren y c
    have hN : w.currentNode.slot y.bits ≠ some (.internal c) := fun h =>
      hlinks y (hsub.isNode_of_slot h)
    simp [hN, hN']
  | last hdepth safe updated =>
    exact ⟨_, _, rfl, .inr ⟨_, v, rfl, .last hdepth safe updated hstale⟩⟩

section Link

variable (hsub : Subtree hasher w.cache w.nibblePath w.currentNode T)
  (hnode : (T.sub x.bits).IsNode) (hx : w.nibblePath.bits ++ x.bits <+: key.bits)
  (henter : Entered w w.currentNode x w₁) (hemptied : Emptied w₁ w₁')
  (hupdated : Trie.Updated keyBits key.bits none (T.sub x.bits) (.leaf a))
  (hleaves : LeavesStale key.bits w₁ (T.sub x.bits) w₁')

include hsub hnode hupdated in
/-- One of the leaves below the link had the key. -/
theorem not_isNode_of_unlinked {version : Version}
    (hchanged : Changed hasher w.nibblePath.bits key.bits none version w.currentNode T N' T') :
    ¬ (T'.sub x.bits).IsNode := by
  intro hnode'
  have heq := (hchanged.links x hnode').2
  obtain ⟨b, hb, c, hc, hne⟩ := exists_two_of_compact (hsub.inv.placed.sub x.bits)
    (hsub.inv.compact.sub x.bits_ne_nil) hnode
  have hkept : ∀ d ∈ T.sub x.bits, d = a := by
    intro d hd
    rw [← heq] at hd
    have hd' := ((hchanged.updated d).mp (mem_of_mem_sub hd)).resolve_left (by simp)
    rw [heq] at hd
    exact (hupdated d).mpr (.inr ⟨hd, hd'.2⟩)
  exact hne (by rw [hkept b hb, hkept c hc])

include hsub hnode hx henter hemptied hupdated hleaves in
theorem outcome_of_emptied (hversion : w.currentNode.version = .ok w.staleVersion)
    (hcompact : w.depth ≠ 0 → T.Compact) :
    Outcome hasher key w T (removeBatchedInternalNode hasher w₁' (some a)) := by
  have hpath := henter.path_returned hemptied.toReturned
  have hversion' := henter.version_returned hemptied.toReturned
  have ha := ((hupdated a).mp rfl).resolve_left (by simp)
  have hpeer : w.nibblePath.bits ++ x.bits <+: keyBits a :=
    (hsub.inv.placed.sub x.bits).prefix_bits ha.1
  obtain ⟨⟨N', promoted⟩, hunlink, hunlinked⟩ :=
    unlinkChild_spec w.version hsub.inv hnode hpeer hx hupdated
  rw [← hversion'] at hunlink
  have hleaves' : LeavesStale key.bits w T
      ⟨w.staleVersion, w₁'.removed, w.stack, N', w.nibblePath⟩ :=
    leaves_lift hsub hnode hx (staleLeafKeys_marked _ _) hleaves henter.cache
  rw [removeBatchedInternalNode_step hpath (hemptied.stack.trans henter.stack) hversion
    hemptied.noChildren.safeToRemove hunlink]
  cases hunlinked with
  | complete changed compact safe =>
    rw [removeBatchedInternalNode_stay safe]
    refine .done ⟨?_, changed.updated, hleaves'⟩ (fun h => compact (hcompact h))
      (inhabited_of_updated hupdated changed.updated)
    exact henter.moved_removed hemptied hsub
      (fun y hy => changed.sameLink hsub.inv
        (changed.isNode_of_not hsub.inv (not_isPrefix_of_ne hx hy)))
      (fun y _ hy => (changed.links y hy).2)
      (not_isNode_of_unlinked hsub hnode hupdated changed) changed.full changed.isNode
      changed.version changed.placed changed.compact
  | promoted noChildren updated =>
    have hother : ∀ y : Nibble, y ≠ x → ¬ (T.sub y.bits).IsNode := fun y hy =>
      not_isNode_of_updated hsub.inv updated (fun b hb c hc => hb.trans hc.symm) hx hy
    by_cases hdepth : w.depth = 0
    · have hnil : w.nibblePath = [] := eq_nil_of_length_eq_zero hdepth
      -- a promoted leaf that arrives at the root of the tree is inserted there
      obtain ⟨N'', T'', l, hN'', hchanged, hnot⟩ := insert_noChildren (Q := []) hasher w.version
        noChildren (List.nil_prefix : [] <+: keyBits a) (by simp)
      have hinsert : N'.insert hasher a w.depth w₁'.removed.version =
          .ok (N'', .insertComplete l) := by
        rw [hdepth, (henter.same hemptied.toReturned w₁'.leaves_removed).version]
        exact hN''
      have hroot : removeBatchedInternalNode hasher
          ⟨w.staleVersion, w₁'.removed, w.stack, N', w.nibblePath⟩ (some a) =
          ascendToRoot ⟨w.staleVersion, w₁'.removed, w.stack, N'', w.nibblePath⟩ hasher none := by
        rw [removeBatchedInternalNode, show depth ⟨w.staleVersion, w₁'.removed, w.stack, N',
          w.nibblePath⟩ = 0 from hdepth, unlinkEmptyNodes, ok_bind]
        dsimp only [depth, Walker.version] at hinsert ⊢
        rw [hinsert, ok_bind]
      have hdone : Done hasher key.bits none w T
          ⟨w.staleVersion, w₁'.removed, w.stack, N'', w.nibblePath⟩ T'' := by
        refine ⟨?_, fun b => ?_, hleaves'⟩
        · refine henter.moved_removed hemptied hsub (fun y hy c => ?_)
            (fun y _ hy => absurd hy (hnot y)) (hnot x) hchanged.full hchanged.isNode
            hchanged.version (by rw [hnil]; exact hchanged.placed) hchanged.compact
          have hN : w.currentNode.slot y.bits ≠ some (.internal c) := fun h =>
            hother y hy (hsub.isNode_of_slot h)
          have hN'' : N''.slot y.bits ≠ some (.internal c) := fun h =>
            hnot y ((hchanged.full y.bits y.length_bits.le).isInternal h)
          simp [hN, hN'']
        · rw [hchanged.updated b, ← updated b, mem_leaf]
          simp [eq_comm]
      rw [hroot]
      exact .done hdone (fun h => absurd hdepth h) (inhabited_of_updated hupdated hdone.updated)
    · exact .emptied hdepth (henter.emptied_removed hemptied hsub noChildren hother) updated hleaves'

end Link

theorem Outcome.lift {c : InternalChild} {M : BatchedInternalNode} {e : Exec Walker}
    (hsub : Subtree hasher w.cache w.nibblePath w.currentNode T)
    (hversion : w.currentNode.version = .ok w.staleVersion) (hnode : (T.sub x.bits).IsNode)
    (hx : w.nibblePath.bits ++ x.bits <+: key.bits) (hcompact : w.depth ≠ 0 → T.Compact)
    (hlinked : Linked hasher w.cache.fetch w.nibblePath w.currentNode x (T.sub x.bits) c M)
    (h : Outcome hasher key ⟨c.version, w.cache, w.currentNode :: w.stack, M, w.nibblePath ++ [x]⟩
      (T.sub x.bits) e) : Outcome hasher key w T e := by
  have henter := entered_of_linked hversion hlinked
  have hdepth : depth ⟨c.version, w.cache, w.currentNode :: w.stack, M, w.nibblePath ++ [x]⟩ ≠ 0 := by
    rw [depth, length_append, length_singleton]
    omega
  cases h with
  | notFound cache none =>
    refine .notFound cache fun a ha heq => none a ?_ heq
    exact mem_sub hsub.inv.placed (open_of_isNode hnode) ha (by rwa [heq])
  | @done _ T₁' done compact inhabited =>
    obtain ⟨w', hw', hmoved, hleaf⟩ := Moved.ascend henter done.moved hsub (hsub.inv.linkable hnode)
      (compact hdepth)
    rw [hw']
    refine .done (done.lift hsub hnode hx hleaf rfl hmoved) (fun h => ?_) ?_
    · exact (hcompact h).replace (compact hdepth) fun _ _ _ => .inr (.inl done.moved.isNode)
    · obtain ⟨a, ha⟩ := inhabited
      refine ⟨a, mem_of_mem_sub (q := x.bits) ?_⟩
      rwa [sub_replace_self]
  | emptied _ emptied updated leaves =>
    exact outcome_of_emptied hsub hnode hx henter emptied updated leaves hversion hcompact
  | last depth _ _ _ => exact absurd depth hdepth

/-- **Removal.** What the walker does below the node where it started, and what is left to do. -/
theorem removeFrom_spec {n : ℕ} (hn : w.depth + n = 64) (hpos : 0 < n)
    (hsub : Subtree hasher w.cache w.nibblePath w.currentNode T)
    (hversion : w.currentNode.version = .ok w.staleVersion)
    (hroot : T ≠ .empty → w.currentNode.slot [] ≠ none)
    (hpath : w.nibblePath <+: key.nibbles) (hcompact : w.depth ≠ 0 → T.Compact) :
    Outcome hasher key w T (removeFrom hasher key n w) := by
  induction n generalizing w T with
  | zero => exact absurd hpos (lt_irrefl 0)
  | succ n ih =>
    have hdepth : w.depth < 64 := by omega
    obtain ⟨x, hget, hpathx, hx⟩ := key.exists_nibble hpath hdepth
    rw [removeFrom, depth]
    rcases remove_spec w.version hsub.inv hroot hx hget hcompact with
      ⟨hremove, hnone⟩ | ⟨c, hremove, hslot⟩ | ⟨result, hremove, v, hremoved, hstale, hnot⟩
    · rw [hremove, ok_bind]
      exact .notFound rfl hnone
    · have hnode := hsub.isNode_of_slot hslot
      obtain ⟨M, hlinked, hsub₁⟩ := hsub.linked hslot
      have hdepth₁ := depth_lt_of_isNode hsub hnode
      rw [hremove, ok_bind]
      dsimp only
      rw [descend_eq hget (by omega) hlinked, ok_bind]
      have hcompact₁ := hsub.inv.compact.sub x.bits_ne_nil
      have hroot₁ : M.slot [] ≠ none := by
        intro h
        have hfull := hlinked.full [] (Nat.zero_le 4)
        rw [h] at hfull
        exact hnode.ne_empty hfull.eq_empty
      have hlen : depth ⟨c.version, w.cache, w.currentNode :: w.stack, M, w.nibblePath ++ [x]⟩ =
          w.depth + 1 := by
        rw [depth, length_append, length_singleton]
        rfl
      exact Outcome.lift hsub hversion hnode hx hcompact hlinked
        (ih (by rw [hlen]; omega) (by omega) hsub₁ hlinked.version (fun _ => hroot₁) hpathx
          fun _ => hcompact₁)
    · rw [hremove, ok_bind]
      obtain ⟨N', r, rfl, ⟨v', rfl, houtcome⟩ | ⟨promoted, v', rfl, houtcome⟩⟩ :=
        outcome_of_removed hsub hx hnot hstale hremoved
      all_goals exact houtcome

end Walker

end ConcordBft.SparseMerkle
