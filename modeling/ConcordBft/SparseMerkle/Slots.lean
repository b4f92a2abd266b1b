import ConcordBft.Lib.Trie
import ConcordBft.SparseMerkle.InternalNode

/-!
# Nodes as pieces of a trie

A child of a node has a position: the bits that lead to it from the root of the node. `slot` reads
and `put` writes a child by its position. A node represents a trie if each child matches the
subtrie at its position: nothing for an empty subtrie, the leaf itself, and the hash of a subtrie
with several leaves. `updateHashes` restores this relation above a position that has changed.
-/

namespace ConcordBft.SparseMerkle

open Verif Verif.Exec List

namespace BatchedInternalNode

/-! ## Positions -/

/-- The index of the child at a position. -/
def idx (q : List Bool) : ℕ := q.foldl childIndex 0

@[simp] theorem idx_nil : idx [] = 0 := rfl

theorem idx_concat (q : List Bool) (b : Bool) : idx (q ++ [b]) = childIndex (idx q) b :=
  foldl_concat ..

theorem childIndex_eq (i : ℕ) (b : Bool) : childIndex i b = 2 * i + 1 + b.toNat := by
  cases b <;> rfl

theorem idx_bounds (q : List Bool) : 2 ^ q.length ≤ idx q + 1 ∧ idx q + 1 < 2 ^ (q.length + 1) := by
  induction q using List.reverseRecOn with
  | nil => simp
  | append_singleton q b ih =>
    rw [idx_concat, childIndex_eq, length_append, length_singleton, pow_succ,
      pow_succ _ (q.length + 1)]
    have hb := b.toNat_lt
    omega

variable {q : List Bool}

theorem idx_lt (hq : q.length ≤ 4) : idx q < 31 := by
  have hpow : 2 ^ (q.length + 1) ≤ 2 ^ 5 := Nat.pow_le_pow_right (by omega) (by omega)
  have := (idx_bounds q).2
  omega

theorem idx_injective : Function.Injective idx := by
  intro q q' h
  induction q using List.reverseRecOn generalizing q' with
  | nil =>
    cases q' using List.reverseRecOn with
    | nil => rfl
    | append_singleton q' b' =>
      rw [idx_concat, childIndex_eq, idx_nil] at h
      omega
  | append_singleton q b ih =>
    cases q' using List.reverseRecOn with
    | nil =>
      rw [idx_concat, childIndex_eq, idx_nil] at h
      omega
    | append_singleton q' b' =>
      rw [idx_concat, idx_concat, childIndex_eq, childIndex_eq] at h
      have hb := b.toNat_lt
      have hb' := b'.toNat_lt
      have hq : idx q = idx q' := by omega
      have hbit : b = b' := by
        cases b <;> cases b' <;> simp_all
      rw [ih hq, hbit]

theorem exists_idx_eq (i : ℕ) : ∃ q, idx q = i := by
  induction i using Nat.strong_induction_on with
  | _ i ih =>
    by_cases hi : i = 0
    · exact ⟨[], hi.symm⟩
    · obtain ⟨q, hq⟩ := ih ((i - 1) / 2) (by omega)
      refine ⟨q ++ [decide (i % 2 = 0)], ?_⟩
      rw [idx_concat, childIndex_eq, hq]
      by_cases hpar : i % 2 = 0
      · simp only [hpar, decide_true, Bool.toNat_true]
        omega
      · simp only [hpar, decide_false, Bool.toNat_false]
        omega

theorem exists_position (i : Fin 31) : ∃ q, q.length ≤ 4 ∧ idx q = i := by
  obtain ⟨q, hq⟩ := exists_idx_eq i
  refine ⟨q, ?_, hq⟩
  by_contra hlen
  have hpow : 2 ^ 5 ≤ 2 ^ q.length := Nat.pow_le_pow_right (by omega) (by omega)
  have := (idx_bounds q).1
  omega

theorem parentIndex_idx (q : List Bool) (b : Bool) : parentIndex (idx (q ++ [b])) = idx q := by
  rw [idx_concat, childIndex_eq, parentIndex]
  have := b.toNat_lt
  omega

theorem idx_concat_ne_zero (q : List Bool) (b : Bool) : idx (q ++ [b]) ≠ 0 := by
  rw [idx_concat, childIndex_eq]
  omega

theorem idx_eq_zero : idx q = 0 ↔ q = [] :=
  ⟨fun h => idx_injective h, fun h => by rw [h]; rfl⟩

theorem isLeftChild_idx (q : List Bool) (b : Bool) : isLeftChild (idx (q ++ [b])) = !b := by
  rw [idx_concat, childIndex_eq, isLeftChild]
  cases b
  · simp only [Bool.toNat_false, Nat.add_zero, Bool.not_false, bne_iff_ne, ne_eq]
    omega
  · simp only [Bool.toNat_true, Bool.not_true, bne_eq_false_iff_eq]
    omega

theorem idx_sibling (q : List Bool) (b : Bool) :
    (if isLeftChild (idx (q ++ [b])) then idx (q ++ [b]) + 1 else idx (q ++ [b]) - 1) =
      idx (q ++ [!b]) := by
  rw [isLeftChild_idx, idx_concat, idx_concat, childIndex_eq, childIndex_eq]
  cases b
  · rfl
  · rfl

theorem height_idx (hq : q.length ≤ 4) : height (idx q) = 4 - q.length := by
  obtain ⟨hlo, hhi⟩ := idx_bounds q
  unfold height
  interval_cases hlen : q.length <;> split_ifs <;> omega

theorem nibbleToIndex_eq (x : Nibble) : nibbleToIndex x = idx x.bits := by
  revert x
  decide +kernel

/-! ## Reading and writing by position -/

variable (N : BatchedInternalNode)

def slot (q : List Bool) : Option Child :=
  if h : idx q < 31 then N.children ⟨idx q, h⟩ else none

def put (q : List Bool) (c : Option Child) : BatchedInternalNode :=
  ⟨fun i => if (i : ℕ) = idx q then c else N.children i⟩

variable {N} {q : List Bool}

theorem get_idx (hq : q.length ≤ 4) : N.get (idx q) = .ok (N.slot q) := by
  rw [get, dif_pos (idx_lt hq), slot, dif_pos (idx_lt hq)]

theorem set_idx (hq : q.length ≤ 4) (c : Option Child) : N.set (idx q) c = .ok (N.put q c) := by
  rw [set, dif_pos (idx_lt hq), put]
  congr 2
  funext i
  split_ifs with hi
  · rw [Function.update_apply, if_pos (Fin.ext hi)]
  · rw [Function.update_apply, if_neg fun h => hi (congrArg Fin.val h)]

theorem slot_put_self (hq : q.length ≤ 4) (c : Option Child) : (N.put q c).slot q = c := by
  simp [slot, put, idx_lt hq]

theorem slot_put_ne {q' : List Bool} (h : q' ≠ q) (c : Option Child) :
    (N.put q c).slot q' = N.slot q' := by
  have hidx : idx q' ≠ idx q := fun heq => h (idx_injective heq)
  simp [slot, put, hidx]

theorem slot_put_of_not_isPrefix {q' u : List Bool} (hq : q <+: u) (h : ¬ q' <+: u)
    (c : Option Child) : (N.put q c).slot q' = N.slot q' := by
  refine slot_put_ne (fun heq => h ?_) c
  rwa [heq]

theorem put_comm {q' : List Bool} (h : q ≠ q') (c c' : Option Child) :
    (N.put q' c').put q c = (N.put q c).put q' c' := by
  have hidx : idx q ≠ idx q' := fun heq => h (idx_injective heq)
  unfold put
  congr 1
  funext i
  dsimp only
  by_cases hi : (i : ℕ) = idx q
  · rw [if_pos hi, if_neg (by rwa [hi]), if_pos hi]
  · rw [if_neg hi, if_neg hi]

@[simp] theorem slot_empty (q : List Bool) : empty.slot q = none := by
  simp [slot, empty]

theorem slot_nil : N.slot [] = N.children 0 := by
  rw [slot, dif_pos (by decide : idx [] < 31)]
  rfl

theorem isEmpty_idx (hq : q.length ≤ 4) : N.isEmpty (idx q) = .ok (N.slot q).isNone := by
  rw [isEmpty, get_idx hq, ok_bind]

theorem getHash_idx (hq : q.length ≤ 4) : N.getHash (idx q) = .ok (childHash (N.slot q)) := by
  rw [getHash, get_idx hq, ok_bind]

theorem getLeaf_idx (hq : q.length ≤ 4) {c : LeafChild} (h : N.slot q = some (.leaf c)) :
    N.getLeaf (idx q) = .ok c := by
  rw [getLeaf, get_idx hq, ok_bind, h]

variable {b : Bool}

theorem peerIndex_idx (hq : (q ++ [b]).length ≤ 4) : N.peerIndex (idx (q ++ [b])) =
    .ok (if (N.slot (q ++ [!b])).isNone then none else some (idx (q ++ [!b]))) := by
  have hq' : (q ++ [!b]).length ≤ 4 := by simpa using hq
  rw [peerIndex, if_neg (idx_concat_ne_zero q b)]
  dsimp only
  rw [idx_sibling, isEmpty_idx hq', ok_bind]
  split_ifs <;> rfl

theorem hash_eq_slot : N.hash = childHash (N.slot []) := by
  rw [hash, slot_nil]

theorem version_congr {N' : BatchedInternalNode} (h : N'.slot [] = N.slot []) :
    N'.version = N.version := by
  rw [slot_nil, slot_nil] at h
  rw [version, version, h]

theorem version_of_slot {c : InternalChild} (h : N.slot [] = some (.internal c)) :
    N.version = .ok c.version := by
  rw [slot_nil] at h
  rw [version, h]

/-! ## Children and subtries -/

abbrev LeafTrie := Trie LeafChild

def keyBits (c : LeafChild) : List Bool := c.key.hash.bits

variable (hasher : Hasher)

def trieHash (t : LeafTrie) : Hash := t.hash hasher.parent Hash.placeholder LeafChild.hash

/-- The child stands for the subtrie. -/
def Matches : Option Child → LeafTrie → Prop
  | none, .empty => True
  | some (.leaf c), .leaf c' => c = c'
  | some (.internal c), .node l r => c.hash = trieHash hasher (.node l r)
  | _, _ => False

variable {hasher} {c : Option Child} {t T : LeafTrie}

theorem Matches.childHash (h : Matches hasher c t) : childHash c = trieHash hasher t := by
  rcases c with _ | c | c <;> cases t <;> first | exact h.elim | skip
  · rfl
  · exact congrArg LeafChild.hash h
  · exact h

@[simp] theorem matches_empty : Matches hasher c .empty ↔ c = none := by
  rcases c with _ | c | c <;> simp [Matches]

@[simp] theorem matches_leaf {a : LeafChild} : Matches hasher c (.leaf a) ↔ c = some (.leaf a) := by
  rcases c with _ | c | c <;> simp [Matches]

theorem matches_of_isNode (ht : t.IsNode) :
    Matches hasher c t ↔ ∃ v, c = some (.internal ⟨trieHash hasher t, v⟩) := by
  cases t with
  | empty => exact ht.elim
  | leaf a => exact ht.elim
  | node l r =>
    rcases c with _ | c | ⟨h, v⟩ <;> simp [Matches]

theorem Matches.isInternal (h : Matches hasher c t) {i : InternalChild}
    (hc : c = some (.internal i)) : t.IsNode := by
  subst hc
  cases t <;> first | exact h.elim | trivial

theorem Matches.eq_empty (h : Matches hasher none t) : t = .empty := by
  cases t <;> first | rfl | exact h.elim

theorem Matches.isNone_eq_false (h : Matches hasher c t) (ht : t ≠ .empty) : c.isNone = false := by
  cases c with
  | none => exact absurd h.eq_empty ht
  | some => rfl

theorem Matches.isLeaf_of_isNode (h : Matches hasher c t) (ht : t.IsNode) : isLeaf c = false := by
  obtain ⟨v, rfl⟩ := (matches_of_isNode ht).mp h
  rfl

theorem isInternal_idx (hq : q.length ≤ 4) (h : Matches hasher (N.slot q) t) :
    ∃ b, N.isInternal (idx q) = .ok b ∧ (b = true ↔ t.IsNode) := by
  rw [isInternal, get_idx hq, ok_bind]
  cases t with
  | empty =>
    rw [matches_empty.mp h]
    exact ⟨false, rfl, by simp [Trie.IsNode]⟩
  | leaf a =>
    rw [matches_leaf.mp h]
    exact ⟨false, rfl, by simp [Trie.IsNode]⟩
  | node l r =>
    have hnode : (Trie.node l r).IsNode := trivial
    obtain ⟨v, hv⟩ := (matches_of_isNode hnode).mp h
    rw [hv]
    exact ⟨true, rfl, by simp [Trie.IsNode]⟩

/-! ## Updating the hashes -/

theorem updateHashes_concat (hasher : Hasher) (version : Version)
    (hq : (q ++ [b]).length ≤ 4) (hleaf : isLeaf (N.slot q) = false) :
    N.updateHashes hasher (idx (q ++ [b])) version = if q = [] then .ok (N.put q (some (.internal
        ⟨hasher.parent (childHash (N.slot (q ++ [false]))) (childHash (N.slot (q ++ [true]))),
          version⟩)))
      else (N.put q (some (.internal
        ⟨hasher.parent (childHash (N.slot (q ++ [false]))) (childHash (N.slot (q ++ [true]))),
          version⟩))).updateHashes hasher (idx q) version := by
  have hlen : q.length + 1 ≤ 4 := by simpa using hq
  have hchild : ∀ b', (q ++ [b']).length ≤ 4 := fun b' => by simpa using hq
  have hleft : (if isLeftChild (idx (q ++ [b])) then idx (q ++ [b]) else idx (q ++ [b]) - 1) =
      idx (q ++ [false]) := by
    cases b
    · rw [isLeftChild_idx]
      rfl
    · have h := idx_sibling q true
      rw [isLeftChild_idx] at h ⊢
      exact h
  have hright : (if isLeftChild (idx (q ++ [b])) then idx (q ++ [b]) + 1 else idx (q ++ [b])) =
      idx (q ++ [true]) := by
    cases b
    · have h := idx_sibling q false
      rw [isLeftChild_idx] at h ⊢
      exact h
    · rw [isLeftChild_idx]
      rfl
  rw [updateHashes, dif_neg (idx_concat_ne_zero q b), hleft, hright, getHash_idx (hchild false),
    ok_bind, getHash_idx (hchild true), ok_bind, parentIndex_idx, get_idx (by omega), ok_bind,
    hleaf, if_neg (by simp), set_idx (by omega), ok_bind]
  simp only [idx_eq_zero]

/-- The node represents the trie below its root. -/
def Slots (hasher : Hasher) (N : BatchedInternalNode) (T : LeafTrie) : Prop :=
  ∀ q, q ≠ [] → q.length ≤ 4 → Matches hasher (N.slot q) (T.sub q)

/-- The node represents the trie, its root included. -/
def Full (hasher : Hasher) (N : BatchedInternalNode) (T : LeafTrie) : Prop :=
  ∀ q, q.length ≤ 4 → Matches hasher (N.slot q) (T.sub q)

theorem Full.slots (h : Full hasher N T) : Slots hasher N T := fun q _ hq => h q hq

/-- If the node represents the trie except above a position, updating the hashes from that
position makes it represent the trie. -/
theorem updateHashes_spec (version : Version) (hq : (q ++ [b]).length ≤ 4)
    (hoff : ∀ q', q'.length ≤ 4 → ¬ q' <+: q → Matches hasher (N.slot q') (T.sub q'))
    (habove : ∀ q', q' <+: q → (T.sub q').IsNode ∧ isLeaf (N.slot q') = false) :
    ∃ N', N.updateHashes hasher (idx (q ++ [b])) version = .ok N' ∧ Full hasher N' T ∧
      (∀ q', q'.length ≤ 4 → ¬ q' <+: q → N'.slot q' = N.slot q') ∧ N'.version = .ok version := by
  induction q using List.reverseRecOn generalizing N b with
  | nil =>
    obtain ⟨hnode, hleaf⟩ := habove [] nil_prefix
    rw [updateHashes_concat hasher version hq hleaf, if_pos rfl]
    have hself := fun c => slot_put_self (N := N) (q := []) (Nat.zero_le 4) c
    have hhash : ∀ b', childHash (N.slot ([] ++ [b'])) = trieHash hasher (T.sub ([] ++ [b'])) :=
      fun b' => (hoff ([] ++ [b']) (by simp) (by simp)).childHash
    refine ⟨_, rfl, fun q' hq' => ?_, fun q' _ hpre => slot_put_ne (fun h => hpre ?_) _,
      version_of_slot (hself _)⟩
    swap
    · rw [h]
    by_cases hnil : q' = []
    · subst hnil
      rw [hself, hhash, hhash, Trie.sub_eq_node hnode]
      exact rfl
    · rw [slot_put_ne hnil]
      exact hoff q' hq' (by rwa [prefix_nil])
  | append_singleton q₀ b₀ ih =>
    obtain ⟨hnode, hleaf⟩ := habove _ prefix_rfl
    have hlen : q₀.length + 1 + 1 ≤ 4 := by
      rwa [length_append, length_append, length_singleton, length_singleton] at hq
    have hq₀ : (q₀ ++ [b₀]).length ≤ 4 := by
      simp only [length_append, length_singleton]
      omega
    rw [updateHashes_concat hasher version hq hleaf, if_neg (by simp)]
    have hhash : ∀ b', childHash (N.slot (q₀ ++ [b₀] ++ [b'])) =
        trieHash hasher (T.sub (q₀ ++ [b₀] ++ [b'])) := fun b' =>
      (hoff _ (by simp; omega) (fun hpre => by simpa using hpre.length_le)).childHash
    obtain ⟨N', hN', hfull, hsame, hversion⟩ := ih (b := b₀)
      (N := N.put (q₀ ++ [b₀]) (some (.internal
        ⟨hasher.parent (childHash (N.slot (q₀ ++ [b₀] ++ [false])))
          (childHash (N.slot (q₀ ++ [b₀] ++ [true]))), version⟩))) hq₀
      (fun q' hq' hpre => by
        by_cases heq : q' = q₀ ++ [b₀]
        · subst heq
          rw [slot_put_self hq₀, hhash, hhash, Trie.sub_eq_node hnode]
          exact rfl
        · rw [slot_put_ne heq]
          exact hoff q' hq' fun h => (prefix_concat_iff.mp h).elim heq hpre)
      (fun q' hq' => by
        have hne : q' ≠ q₀ ++ [b₀] := fun h => by simpa [h] using hq'.length_le
        rw [slot_put_ne hne]
        exact habove q' (hq'.trans (prefix_append _ _)))
    refine ⟨N', hN', hfull, fun q' hq' hpre => ?_, hversion⟩
    have hne : q' ≠ q₀ ++ [b₀] := fun h => hpre (h ▸ prefix_rfl)
    rw [hsame q' hq' fun h => hpre (h.trans (prefix_append _ _)), slot_put_ne hne]

/-! ## Finding a child -/

/-- The position on the path of the nibble where the trie first has no node. -/
structure StopsAt (T : LeafTrie) (x : Nibble) (q : List Bool) (b : Bool) : Prop where
  onPath : q ++ [b] <+: x.bits
  above : ∀ q', q' <+: q → q' ≠ [] → (T.sub q').IsNode
  stop : ¬ (T.sub (q ++ [b])).IsNode

theorem StopsAt.length_le {x : Nibble} (h : StopsAt T x q b) : (q ++ [b]).length ≤ 4 := by
  rw [← x.length_bits]
  exact h.onPath.length_le

theorem StopsAt.not_isNode {x : Nibble} (h : StopsAt T x q b) : ¬ (T.sub x.bits).IsNode := by
  obtain ⟨rest, hrest⟩ := h.onPath
  rw [← hrest, Trie.sub_append]
  exact Trie.not_isNode_sub h.stop rest

theorem findChild_spec (hslots : Slots hasher N T) (x : Nibble) :
    (∃ q b, StopsAt T x q b ∧ N.findChild x 4 0 = .ok (idx (q ++ [b]), false)) ∨
    ((∀ q', q' <+: x.bits → q' ≠ [] → (T.sub q').IsNode) ∧
      N.findChild x 4 0 = .ok (idx x.bits, true)) := by
  -- `q` is the part of the path that is behind, `i` the number of bits ahead
  suffices h : ∀ (i : ℕ) (q : List Bool), q ++ x.lowBits i = x.bits →
      (∀ q', q' <+: q → q' ≠ [] → (T.sub q').IsNode) →
      (∃ q' b, StopsAt T x q' b ∧ N.findChild x i (idx q) = .ok (idx (q' ++ [b]), false)) ∨
      ((∀ q', q' <+: x.bits → q' ≠ [] → (T.sub q').IsNode) ∧
        N.findChild x i (idx q) = .ok (idx x.bits, true)) from
    h 4 [] rfl fun q' hq' hne => absurd (prefix_nil.mp hq') hne
  intro i
  induction i with
  | zero =>
    intro q hpath habove
    rw [Nibble.lowBits, append_nil] at hpath
    subst hpath
    exact .inr ⟨habove, rfl⟩
  | succ i ih =>
    intro q hpath habove
    rw [Nibble.lowBits, ← singleton_append, ← append_assoc] at hpath
    have hpre : q ++ [x.getBit i] <+: x.bits := ⟨_, hpath⟩
    have hlen : (q ++ [x.getBit i]).length ≤ 4 := by
      rw [← x.length_bits]
      exact hpre.length_le
    obtain ⟨internal, hinternal, hiff⟩ := isInternal_idx hlen (hslots _ (by simp) hlen)
    rw [findChild, ← idx_concat, hinternal, ok_bind]
    by_cases hnode : (T.sub (q ++ [x.getBit i])).IsNode
    · rw [hiff.mpr hnode, if_pos rfl]
      refine ih _ hpath fun q' hq' hne => ?_
      rcases prefix_concat_iff.mp hq' with rfl | hq'
      · exact hnode
      · exact habove q' hq' hne
    · rw [if_neg (by rwa [hiff])]
      exact .inl ⟨q, x.getBit i, ⟨hpre, habove, hnode⟩, rfl⟩

end BatchedInternalNode

end ConcordBft.SparseMerkle
