import ConcordBft.SparseMerkle.Persisted

/-!
# What is reachable from a version

The internal nodes that a version of the tree needs are found from its root by following the
versions of the internal children at level 0, and the leaves from the leaf children of these nodes.
In a database that represents a trie, the reachable leaves are those of the trie, and nodes that are
written later change nothing.
-/

namespace ConcordBft.SparseMerkle

open Verif Verif.Exec BatchedInternalNode Database

variable {hasher : Hasher} {db db' : Database} {v : Version} {k : InternalNodeKey} {l : LeafKey}
  {P : NibblePath} {N M : BatchedInternalNode} {T : LeafTrie} {f : Store} {x : Nibble}
  {c : InternalChild}

namespace Database

inductive Reachable (db : Database) (v : Version) : InternalNodeKey → Prop
  | root (stored : (db.internalNodes.lookup (.root v)).isSome) : Reachable db v (.root v)
  | child {k : InternalNodeKey} {node : BatchedInternalNode} {x : Nibble} {c : InternalChild}
      (reachable : Reachable db v k) (stored : db.internalNodes.lookup k = some node)
      (link : node.get (nibbleToIndex x) = .ok (some (.internal c))) :
      Reachable db v ⟨c.version, k.path ++ [x]⟩

def LeafReachable (db : Database) (v : Version) (l : LeafKey) : Prop :=
  ∃ k node i c, db.Reachable v k ∧ db.internalNodes.lookup k = some node ∧
    node.get i = .ok (some (.leaf c)) ∧ c.key = l

end Database

/-! ## Links -/

theorem get_nibbleToIndex : N.get (nibbleToIndex x) = .ok (some (.internal c)) ↔
    N.slot x.bits = some (.internal c) := by
  rw [nibbleToIndex_eq, get_idx x.length_bits.le, Except.ok.injEq]

theorem Reach.concat (h : Reach f P N k) (hM : f k = some M)
    (hslot : M.slot x.bits = some (.internal c)) : Reach f P N ⟨c.version, k.path ++ [x]⟩ := by
  induction h with
  | link slot => exact .step slot hM (.link hslot)
  | step slot node _ ih => exact .step slot node (ih hM)

theorem Database.Reachable.reach (hroot : db.internalNodes.lookup (.root v) = some N)
    (h : db.Reachable v k) : k = .root v ∨ Reach db.internalNodes.lookup [] N k := by
  induction h with
  | root _ => exact .inl rfl
  | child _ stored link ih =>
    rw [get_nibbleToIndex] at link
    rcases ih with rfl | hreach
    · rw [hroot] at stored
      cases stored
      exact .inr (.link link)
    · exact .inr (hreach.concat stored link)

theorem Reach.reachable (hreach : Reach db.internalNodes.lookup P N k)
    {k₀ : InternalNodeKey} (hpath : k₀.path = P) (hk₀ : db.Reachable v k₀)
    (hN : db.internalNodes.lookup k₀ = some N) : db.Reachable v k := by
  induction hreach generalizing k₀ with
  | link slot =>
    rw [← hpath]
    exact .child hk₀ hN (get_nibbleToIndex.mpr slot)
  | step slot node _ ih =>
    have hchild := Database.Reachable.child hk₀ hN (get_nibbleToIndex.mpr slot)
    rw [hpath] at hchild
    exact ih rfl hchild node

theorem Database.reachable_iff (hroot : db.internalNodes.lookup (.root v) = some N) :
    db.Reachable v k ↔ k = .root v ∨ Reach db.internalNodes.lookup [] N k := by
  have hstored : (db.internalNodes.lookup (.root v)).isSome := by
    rw [hroot]
    rfl
  refine ⟨fun h => h.reach hroot, ?_⟩
  rintro (rfl | hreach)
  · exact .root hstored
  · exact hreach.reachable rfl (.root hstored) hroot

theorem Database.not_reachable (hroot : db.internalNodes.lookup (.root v) = none) :
    ¬ db.Reachable v k := by
  intro h
  induction h with
  | root stored =>
    rw [hroot] at stored
    cases stored
  | child _ _ _ ih => exact ih

/-! ## Leaves -/

theorem Nibble.exists_bits {q : List Bool} (hq : q.length = 4) : ∃ x : Nibble, x.bits = q := by
  have hbounds := idx_bounds q
  rw [hq] at hbounds
  refine ⟨BitVec.ofNat 4 (idx q - 15), idx_injective ?_⟩
  rw [← nibbleToIndex_eq, nibbleToIndex, BitVec.toNat_ofNat, Nat.mod_eq_of_lt (by omega)]
  omega

theorem mem_of_get {p : List Bool} {i : ℕ} {a : LeafChild} (hinv : NodeInv hasher p N T)
    (h : N.get i = .ok (some (.leaf a))) : a ∈ T := by
  have hi : i < 31 := by
    by_contra hi
    rw [BatchedInternalNode.get, dif_neg hi] at h
    cases h
  obtain ⟨q, hq, hidx⟩ := exists_position ⟨i, hi⟩
  have hslot : N.slot q = some (.leaf a) := by
    rw [← show idx q = i from hidx, get_idx hq, Except.ok.injEq] at h
    exact h
  have hne : q ≠ [] := by
    rintro rfl
    have hroot := hinv.root
    rw [hslot] at hroot
    cases hroot
  have hmatch := hinv.slots q hne hq
  rw [hslot] at hmatch
  refine Trie.mem_of_mem_sub (q := q) ?_
  cases hsub : T.sub q with
  | empty =>
    rw [hsub, matches_empty] at hmatch
    cases hmatch
  | leaf b =>
    rw [hsub, matches_leaf] at hmatch
    cases hmatch
    rfl
  | node l r =>
    rw [hsub] at hmatch
    exact hmatch.elim

theorem NodeRep.exists_leaf {a : LeafChild} (h : NodeRep hasher f P N T)
    (hslots : Slots hasher N T) (hleaf : ¬ T.IsLeaf) (ha : a ∈ T) :
    (∃ i, N.get i = .ok (some (.leaf a))) ∨
      ∃ k M i, Reach f P N k ∧ f k = some M ∧ M.get i = .ok (some (.leaf a)) := by
  induction h with
  | @intro P N T child node slot fetch version pos full rep ih =>
    rcases Trie.leaf_or_isNode_of_mem ha 4 with ⟨q, hq, hsub⟩ | ⟨q, hq, hnode, ha'⟩
    · have hne : q ≠ [] := by
        rintro rfl
        rw [Trie.sub_nil] at hsub
        rw [hsub] at hleaf
        exact hleaf trivial
      have hmatch := hslots q hne hq
      rw [hsub, matches_leaf] at hmatch
      exact .inl ⟨idx q, by rw [get_idx hq, hmatch]⟩
    · obtain ⟨x, rfl⟩ := Nibble.exists_bits hq
      have hreach : ∀ k, Reach f (P ++ [x]) (node x) k → Reach f P N k := fun k hk =>
        .step (slot x hnode) (fetch x hnode) hk
      rcases ih x hnode (full x hnode).slots hnode.not_isLeaf ha' with
        ⟨i, hi⟩ | ⟨k, M, i, hk, hM, hi⟩
      · exact .inr ⟨_, node x, i, .link (slot x hnode), fetch x hnode, hi⟩
      · exact .inr ⟨k, M, i, hreach k hk, hM, hi⟩

theorem NodeRep.link (h : NodeRep hasher f P N T) (hinv : NodeInv hasher P.bits N T)
    (hslot : N.slot x.bits = some (.internal c)) :
    ∃ M, f ⟨c.version, P ++ [x]⟩ = some M ∧ NodeRep hasher f (P ++ [x]) M (T.sub x.bits) ∧
      NodeInv hasher (P ++ [x] : NibblePath).bits M (T.sub x.bits) := by
  have hnode := (hinv.slots x.bits x.bits_ne_nil x.length_bits.le).isInternal hslot
  obtain ⟨c', M, hlinked⟩ := h.linked hnode
  obtain rfl := hlinked.eq_of_slot hslot
  refine ⟨M, hlinked.fetch, hlinked.rep, nodeInv_of_full hlinked.full hnode ?_
    (hinv.compact.sub x.bits_ne_nil).childrenCompact⟩
  rw [NibblePath.bits_concat]
  exact hinv.placed.sub x.bits

theorem NodeRep.of_reach (h : NodeRep hasher f P N T) (hinv : NodeInv hasher P.bits N T)
    (hreach : Reach f P N k) : ∃ M, f k = some M ∧
      ∀ i a, M.get i = .ok (some (.leaf a)) → a ∈ T := by
  induction hreach generalizing T with
  | link slot =>
    obtain ⟨M, hM, -, hinv'⟩ := h.link hinv slot
    exact ⟨M, hM, fun i a hget => Trie.mem_of_mem_sub (mem_of_get hinv' hget)⟩
  | step slot node _ ih =>
    obtain ⟨M, hM, hrep, hinv'⟩ := h.link hinv slot
    rw [node] at hM
    cases hM
    obtain ⟨M', hM', hleaves⟩ := ih hrep hinv'
    exact ⟨M', hM', fun i a hget => Trie.mem_of_mem_sub (hleaves i a hget)⟩

/-! ## Versions -/

/-- The root of the version and the nodes below it represent the trie. -/
def VersionRep (hasher : Hasher) (db : Database) (v : Version) (T : LeafTrie) : Prop :=
  ∃ N, db.internalNodes.lookup (.root v) = some N ∧ NodeInv hasher [] N T ∧
    NodeRep hasher db.internalNodes.lookup [] N T

theorem VersionRep.stored (h : VersionRep hasher db v T) (hk : db.Reachable v k) :
    (db.internalNodes.lookup k).isSome := by
  obtain ⟨N, hroot, hinv, hrep⟩ := h
  rcases hk.reach hroot with rfl | hreach
  · rw [hroot]
    rfl
  · obtain ⟨M, hM, -⟩ := hrep.of_reach hinv hreach
    rw [hM]
    rfl

theorem VersionRep.leafReachable_iff (h : VersionRep hasher db v T) :
    db.LeafReachable v l ↔ ∃ a ∈ T, a.key = l := by
  obtain ⟨N, hroot, hinv, hrep⟩ := h
  constructor
  · rintro ⟨k, node, i, a, hk, hnode, hget, rfl⟩
    refine ⟨a, ?_, rfl⟩
    rcases hk.reach hroot with rfl | hreach
    · rw [hroot] at hnode
      cases hnode
      exact mem_of_get hinv hget
    · obtain ⟨M, hM, hleaves⟩ := hrep.of_reach hinv hreach
      rw [hnode] at hM
      cases hM
      exact hleaves i a hget
  · rintro ⟨a, ha, rfl⟩
    rcases hrep.exists_leaf hinv.slots hinv.notLeaf ha with ⟨i, hi⟩ | ⟨k, M, i, hk, hM, hi⟩
    · exact ⟨_, N, i, a, (reachable_iff hroot).mpr (.inl rfl), hroot, hi, rfl⟩
    · exact ⟨k, M, i, a, (reachable_iff hroot).mpr (.inr hk), hM, hi, rfl⟩

section Extend

variable (hext : ∀ k M, db.internalNodes.lookup k = some M → db'.internalNodes.lookup k = some M)

include hext

theorem VersionRep.extend (h : VersionRep hasher db v T) : VersionRep hasher db' v T := by
  obtain ⟨N, hroot, hinv, hrep⟩ := h
  exact ⟨N, hext _ _ hroot, hinv, hrep.mono fun k _ _ M hM => hext k M hM⟩

/-- Nodes that are written later do not change what is reachable from a version. -/
theorem VersionRep.reachable_extend (h : VersionRep hasher db v T) :
    db'.Reachable v k ↔ db.Reachable v k := by
  obtain ⟨N, hroot, hinv, hrep⟩ := h
  rw [reachable_iff hroot, reachable_iff (hext _ _ hroot)]
  exact or_congr_right (reach_iff_of_nodeRep hinv.slots (fun k _ _ M hM => hext k M hM) hrep)

end Extend

end ConcordBft.SparseMerkle
