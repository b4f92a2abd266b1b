import ConcordBft.SparseMerkle.NodeRemove
import ConcordBft.SparseMerkle.Tree

/-!
# Nodes that represent a trie

The nodes of a tree are found in a store, by version and path. `Reach` follows the links of a node,
`NodeRep` says that the node and the nodes below it represent a trie. Both depend only on the part
of the store below the path of the node, and they can be taken apart nibble by nibble.
-/

namespace ConcordBft.SparseMerkle

open Verif Verif.Exec BatchedInternalNode List

/-- Where nodes are found by their keys. -/
abbrev Store := InternalNodeKey → Option BatchedInternalNode

variable {hasher : Hasher} {f f' : Store} {P R : NibblePath} {N N' M : BatchedInternalNode}
  {T T' S : LeafTrie} {x y : Nibble} {k : InternalNodeKey} {c : InternalChild}

/-! ## Reachable nodes -/

/-- The keys of the nodes below a node. -/
inductive Reach (f : Store) : NibblePath → BatchedInternalNode → InternalNodeKey → Prop
  | link {P : NibblePath} {N : BatchedInternalNode} {x : Nibble} {c : InternalChild}
      (slot : N.slot x.bits = some (.internal c)) : Reach f P N ⟨c.version, P ++ [x]⟩
  | step {P : NibblePath} {N M : BatchedInternalNode} {x : Nibble} {c : InternalChild}
      {k : InternalNodeKey} (slot : N.slot x.bits = some (.internal c))
      (node : f ⟨c.version, P ++ [x]⟩ = some M) (reach : Reach f (P ++ [x]) M k) : Reach f P N k

/-- The keys at and below the child of a nibble. -/
def ReachAt (f : Store) (P : NibblePath) (N : BatchedInternalNode) (x : Nibble)
    (k : InternalNodeKey) : Prop :=
  ∃ c, N.slot x.bits = some (.internal c) ∧
    (k = ⟨c.version, P ++ [x]⟩ ∨ ∃ M, f ⟨c.version, P ++ [x]⟩ = some M ∧ Reach f (P ++ [x]) M k)

theorem reach_iff : Reach f P N k ↔ ∃ x, ReachAt f P N x k := by
  constructor
  · rintro (⟨hslot⟩ | ⟨hslot, hM, hk⟩)
    · exact ⟨_, _, hslot, .inl rfl⟩
    · exact ⟨_, _, hslot, .inr ⟨_, hM, hk⟩⟩
  · rintro ⟨x, c, hslot, rfl | ⟨M, hM, hk⟩⟩
    · exact .link hslot
    · exact .step hslot hM hk

theorem Reach.path (h : Reach f P N k) : ∃ x, P ++ [x] <+: k.path := by
  induction h with
  | link _ => exact ⟨_, prefix_rfl⟩
  | step _ _ _ ih =>
    obtain ⟨y, hy⟩ := ih
    exact ⟨_, (prefix_append _ [y]).trans hy⟩

theorem ReachAt.path (h : ReachAt f P N x k) : P ++ [x] <+: k.path := by
  obtain ⟨c, -, rfl | ⟨M, -, hk⟩⟩ := h
  · exact prefix_rfl
  · obtain ⟨y, hy⟩ := hk.path
    exact (prefix_append _ [y]).trans hy

theorem nibble_eq (h : P ++ [x] <+: R) (h' : P ++ [y] <+: R) : x = y := by
  have heq := (prefix_of_prefix_length_le h h' (by simp)).eq_of_length (by simp)
  exact (List.cons.inj (append_cancel_left heq)).1

theorem Reach.mono (hf : ∀ k x, P ++ [x] <+: k.path → ∀ M, f k = some M → f' k = some M)
    (h : Reach f P N k) : Reach f' P N k := by
  induction h with
  | link slot => exact .link slot
  | step slot node _ ih =>
    refine .step slot (hf _ _ prefix_rfl _ node) (ih fun k y hy => ?_)
    exact hf k _ ((prefix_append _ [y]).trans hy)

theorem Reach.congr (hf : ∀ k x, P ++ [x] <+: k.path → f k = f' k) (h : Reach f P N k) :
    Reach f' P N k :=
  h.mono fun k x hk _ hM => (hf k x hk).symm.trans hM

def SameLink (N N' : BatchedInternalNode) (x : Nibble) : Prop :=
  ∀ c, N'.slot x.bits = some (.internal c) ↔ N.slot x.bits = some (.internal c)

theorem sameLink_of_slot (h : N'.slot x.bits = N.slot x.bits) : SameLink N N' x := by
  intro c
  rw [h]

theorem reachAt_congr (hlink : SameLink N N' x) (hf : ∀ k, P ++ [x] <+: k.path → f' k = f k) :
    ReachAt f' P N' x k ↔ ReachAt f P N x k := by
  have hbelow : ∀ k y, P ++ [x] ++ [y] <+: k.path → f' k = f k := fun k y hy =>
    hf k ((prefix_append _ [y]).trans hy)
  unfold ReachAt
  simp only [hlink _]
  constructor
  · rintro ⟨c, hc, rfl | ⟨M, hM, hk⟩⟩
    · exact ⟨c, hc, .inl rfl⟩
    · exact ⟨c, hc, .inr ⟨M, (hf _ prefix_rfl).symm.trans hM, hk.congr hbelow⟩⟩
  · rintro ⟨c, hc, rfl | ⟨M, hM, hk⟩⟩
    · exact ⟨c, hc, .inl rfl⟩
    · exact ⟨c, hc, .inr ⟨M, (hf _ prefix_rfl).trans hM,
        hk.congr fun k y hy => (hbelow k y hy).symm⟩⟩

theorem reachAt_of_slot (hslot : N.slot x.bits = some (.internal c))
    (hM : f ⟨c.version, P ++ [x]⟩ = some M) :
    ReachAt f P N x k ↔ k = ⟨c.version, P ++ [x]⟩ ∨ Reach f (P ++ [x]) M k := by
  constructor
  · rintro ⟨c', hc', h⟩
    obtain rfl : c' = c := by
      rw [hslot] at hc'
      cases hc'
      rfl
    refine h.imp_right ?_
    rintro ⟨M', hM', hk⟩
    rw [hM] at hM'
    cases hM'
    exact hk
  · intro h
    exact ⟨c, hslot, h.imp_right fun hk => ⟨M, hM, hk⟩⟩

theorem not_reachAt (h : ∀ c, N.slot x.bits ≠ some (.internal c)) : ¬ ReachAt f P N x k := by
  rintro ⟨c, hc, -⟩
  exact h c hc

/-! ## Representation -/

/-- The nodes below `N`, found in the store, represent the trie `T`. -/
inductive NodeRep (hasher : Hasher) (f : Store) :
    NibblePath → BatchedInternalNode → LeafTrie → Prop
  | intro {P : NibblePath} {N : BatchedInternalNode} {T : LeafTrie} (child : Nibble → InternalChild)
      (node : Nibble → BatchedInternalNode)
      (slot : ∀ x, (T.sub x.bits).IsNode → N.slot x.bits = some (.internal (child x)))
      (fetch : ∀ x, (T.sub x.bits).IsNode → f ⟨(child x).version, P ++ [x]⟩ = some (node x))
      (version : ∀ x, (T.sub x.bits).IsNode → (node x).version = .ok (child x).version)
      (pos : ∀ x, (T.sub x.bits).IsNode → 0 < (child x).version)
      (full : ∀ x, (T.sub x.bits).IsNode → Full hasher (node x) (T.sub x.bits))
      (rep : ∀ x, (T.sub x.bits).IsNode →
        NodeRep hasher f (P ++ [x]) (node x) (T.sub x.bits)) :
      NodeRep hasher f P N T

/-- The child `c` of a nibble and the node `M` that it links to, which represents `S`. -/
structure Linked (hasher : Hasher) (f : Store) (P : NibblePath) (N : BatchedInternalNode)
    (x : Nibble) (S : LeafTrie) (c : InternalChild) (M : BatchedInternalNode) : Prop where
  slot : N.slot x.bits = some (.internal c)
  fetch : f ⟨c.version, P ++ [x]⟩ = some M
  version : M.version = .ok c.version
  pos : 0 < c.version
  full : Full hasher M S
  rep : NodeRep hasher f (P ++ [x]) M S

theorem Linked.eq_of_slot {c' : InternalChild} (h : Linked hasher f P N x S c' M)
    (hslot : N.slot x.bits = some (.internal c)) : c' = c := by
  cases h.slot.symm.trans hslot
  rfl

theorem NodeRep.linked (h : NodeRep hasher f P N T) (hx : (T.sub x.bits).IsNode) :
    ∃ c M, Linked hasher f P N x (T.sub x.bits) c M := by
  obtain ⟨child, node, slot, fetch, version, pos, full, rep⟩ := h
  exact ⟨child x, node x, slot x hx, fetch x hx, version x hx, pos x hx, full x hx, rep x hx⟩

theorem nodeRep_of_linked (h : ∀ x, (T.sub x.bits).IsNode →
    ∃ c M, Linked hasher f P N x (T.sub x.bits) c M) : NodeRep hasher f P N T := by
  classical
  have hchoice : ∀ x, ∃ cM : InternalChild × BatchedInternalNode,
      (T.sub x.bits).IsNode → Linked hasher f P N x (T.sub x.bits) cM.1 cM.2 := by
    intro x
    by_cases hx : (T.sub x.bits).IsNode
    · obtain ⟨c, M, hlinked⟩ := h x hx
      exact ⟨(c, M), fun _ => hlinked⟩
    · exact ⟨(⟨Hash.placeholder, 0⟩, .empty), fun h => absurd h hx⟩
  choose g hg using hchoice
  exact .intro (fun x => (g x).1) (fun x => (g x).2) (fun x hx => (hg x hx).slot)
    (fun x hx => (hg x hx).fetch) (fun x hx => (hg x hx).version) (fun x hx => (hg x hx).pos)
    (fun x hx => (hg x hx).full) fun x hx => (hg x hx).rep

theorem NodeRep.mono (hf : ∀ k x, P ++ [x] <+: k.path → ∀ M, f k = some M → f' k = some M)
    (h : NodeRep hasher f P N T) : NodeRep hasher f' P N T := by
  induction h with
  | intro child node slot fetch version pos full _ ih =>
    refine .intro child node slot (fun x hx => hf _ _ prefix_rfl _ (fetch x hx)) version pos
      full fun x hx => ih x hx fun k y hy => ?_
    exact hf k x ((prefix_append _ [y]).trans hy)

/-- A store that finds at least the nodes below a node leads to the same keys. -/
theorem reach_iff_of_nodeRep (hslots : Slots hasher N T)
    (hf : ∀ k x, P ++ [x] <+: k.path → ∀ M, f k = some M → f' k = some M)
    (h : NodeRep hasher f P N T) : Reach f' P N k ↔ Reach f P N k := by
  constructor
  · intro hreach
    induction hreach generalizing T with
    | link slot => exact .link slot
    | @step P N M x c k slot node _ ih =>
      have hnode := (hslots x.bits x.bits_ne_nil x.length_bits.le).isInternal slot
      obtain ⟨c', M', hlinked⟩ := h.linked hnode
      obtain rfl := hlinked.eq_of_slot slot
      obtain rfl : M' = M := by
        have heq := (hf _ _ prefix_rfl _ hlinked.fetch).symm.trans node
        cases heq
        rfl
      refine .step slot hlinked.fetch (ih hlinked.full.slots (fun k y hy => ?_) hlinked.rep)
      exact hf k x ((prefix_append _ [y]).trans hy)
  · exact Reach.mono hf

theorem Linked.congr (h : Linked hasher f P N x S c M) (hlink : SameLink N N' x)
    (hf : ∀ k, P ++ [x] <+: k.path → f' k = f k) : Linked hasher f' P N' x S c M where
  slot := (hlink c).mpr h.slot
  fetch := (hf _ prefix_rfl).trans h.fetch
  version := h.version
  pos := h.pos
  full := h.full
  rep := h.rep.mono fun k y hy _ hM => (hf k ((prefix_append _ [y]).trans hy)).trans hM

end ConcordBft.SparseMerkle
