import ConcordBft.RangeTree.Layout
import Mathlib.Algebra.BigOperators.Intervals

/-!
# Climbing to the root, and the tree of a window

The loops of the tree follow the parents from a node to the root. A spine `g` gives the block of
each level on the way; `addValueToInternalNodes` adds a value to every node of the spine from the
level where it starts (`addValueToInternalNodes_spec`).

The tree of RVB indexes `first + 1, …, last + 1` up to level `top` has a node for every block that
meets the window, and every field of a node is a function of the window (`RvtWindow.node`).
`Rep` says that a tree is the tree of a window; there is only one (`Rep.unique`). The lemmas about
`push` say what changes in the nodes when an index is added on the right.
-/

namespace ConcordBft

open Verif Verif.Exec Verif.Kary Nat

variable (v : ℤ)

namespace RangeValidationTree

variable {c : RvtConfig} {t : RangeValidationTree} {P : ℕ → ℕ → Prop} {f : ℕ → ℕ → RVTNode}
  {l j : ℕ}

@[simp] theorem write_root (t : RangeValidationTree) (node : RVTNode) :
    (t.write node).root = t.root := rfl

@[simp] theorem write_idToNode (t : RangeValidationTree) (node : RVTNode) :
    (t.write node).idToNode = t.idToNode.insert node.id node := rfl

theorem deref_eq (H : Holds c t.idToNode P f) (hP : P l j) :
    t.deref (c.idAt l j) = .ok (f l j) := by
  unfold deref
  rw [H.lookup l j hP]

theorem derefRoot_eq (H : Holds c t.idToNode P f) (hP : P l j)
    (hroot : t.root = some (c.idAt l j)) : t.derefRoot = .ok (f l j) := by
  unfold derefRoot
  rw [hroot]
  exact deref_eq H hP

theorem requireParent_eq (H : Holds c t.idToNode P f) (hP : P l j) {node : RVTNode}
    (hroot : t.root ≠ some node.id) (hparent : node.parentId = c.idAt l j) :
    t.requireParent node = .ok (f l j) := by
  unfold requireParent parentNode
  rw [if_neg hroot, hparent, H.lookup l j hP]
  rfl

/-- A path of parents from level `m` to the root at level `top`. -/
structure Spine (c : RvtConfig) (t : RangeValidationTree) (P : ℕ → ℕ → Prop)
    (f : ℕ → ℕ → RVTNode) (g : ℕ → ℕ) (m top : ℕ) : Prop where
  le : m ≤ top
  holds : Holds c t.idToNode P f
  mem : ∀ l, m ≤ l → l ≤ top → P l (g l)
  parent : ∀ l, m ≤ l → l < top → (f l (g l)).parentId = c.idAt (l + 1) (g (l + 1))
  parent_root : (f top (g top)).parentId = 0
  root : t.root = some (c.idAt top (g top))

namespace Spine

variable {g : ℕ → ℕ} {m top : ℕ}

section

variable (S : Spine c t P f g m top)

include S

theorem top_lt : top < 64 :=
  (S.holds.inRange top (g top) (S.mem top S.le le_rfl)).level_lt

theorem root_eq_iff (hm : m ≤ l) (hl : l ≤ top) : t.root = some (c.idAt l (g l)) ↔ l = top := by
  constructor
  · intro h
    rw [S.root, Option.some.injEq] at h
    exact (RvtConfig.idAt_inj (S.holds.inRange _ _ (S.mem top S.le le_rfl))
      (S.holds.inRange _ _ (S.mem l hm hl)) h).1.symm
  · rintro rfl
    exact S.root

theorem tail (hlt : m < top) {node : RVTNode} (hid : node.id = c.idAt m (g m)) :
    Spine c (t.write node) P (fun l j => if l = m ∧ j = g m then node else f l j) g
      (m + 1) top where
  le := hlt
  holds := S.holds.set (S.mem m le_rfl S.le) node hid
  mem l hm hl := S.mem l (by omega) hl
  parent l hm hl := by
    rw [if_neg (by omega)]
    exact S.parent l (by omega) hl
  parent_root := by
    rw [if_neg (by omega)]
    exact S.parent_root
  root := S.root

theorem addValueLoop_eq (hlt : m < top) (v : ℤ) {fuel : ℕ} (hfuel : top - m < fuel) :
    ∃ nodes, addValueLoop c v fuel t (c.idAt m (g m)) =
        .ok ({ t with idToNode := nodes }, c.idAt top (g top)) ∧ Holds c nodes P (fun l j =>
        if j = g l ∧ m ≤ l ∧ l < top then (f l j).addValue c v else f l j) := by
  induction fuel generalizing t f m with
  | zero => omega
  | succ fuel ih =>
    have hmem := S.mem m le_rfl S.le
    have hmem' := S.mem (m + 1) (by omega) hlt
    have hid : ((f m (g m)).addValue c v).id = c.idAt m (g m) := S.holds.id_eq m (g m) hmem
    have hpos := (S.holds.inRange _ _ hmem').idAt_pos
    have hroot : t.root ≠ some (c.idAt m (g m)) := by
      rw [Ne, S.root_eq_iff le_rfl S.le]
      omega
    have S' := S.tail hlt hid
    have hreq : (t.write ((f m (g m)).addValue c v)).requireParent (f m (g m)) =
        .ok (f (m + 1) (g (m + 1))) := by
      rw [requireParent_eq S'.holds hmem' (by rw [S.holds.id_eq m _ hmem]; exact hroot)
        (S.parent m le_rfl hlt), if_neg (by omega)]
    have hparent := S.parent m le_rfl hlt
    unfold addValueLoop
    rw [deref_eq S.holds hmem, ok_bind]
    dsimp only
    rw [if_pos (by omega), write_root, ensure_decide hroot, hreq, ok_bind, S.holds.id_eq _ _ hmem']
    by_cases htop : m + 1 = top
    · rw [if_pos ((S.root_eq_iff (by omega) hlt).2 htop)]
      refine ⟨_, by rw [htop]; rfl, S.holds.set_congr _ hmem hid (if_pos ⟨rfl, le_rfl, hlt⟩) ?_⟩
      rintro l j - hne
      rw [if_neg]
      rintro ⟨rfl, h⟩
      exact hne (by rw [show l = m by omega]; exact ⟨rfl, rfl⟩)
    · rw [if_neg (by rw [S.root_eq_iff (by omega) hlt]; exact htop)]
      obtain ⟨nodes, hrun, hnodes⟩ := ih S' (by omega) (by omega)
      refine ⟨nodes, hrun, hnodes.congr (fun _ _ => Iff.rfl) ?_⟩
      intro l j _
      rcases eq_or_ne l m with rfl | hne
      · rw [if_neg (by omega)]
        by_cases hj : j = g l
        · rw [if_pos ⟨rfl, hj⟩, if_pos ⟨hj, le_rfl, hlt⟩, hj]
        · rw [if_neg fun h => hj h.2, if_neg fun h => hj h.1]
      · rw [if_neg (show ¬ (l = m ∧ j = g m) from fun h => hne h.1)]
        by_cases hj : j = g l ∧ m ≤ l ∧ l < top
        · rw [if_pos hj, if_pos ⟨hj.1, by omega, hj.2.2⟩]
        · rw [if_neg hj, if_neg (by omega)]

/-- **Adding a value** to every node from level `m` up to the root. -/
theorem addValueToInternalNodes_eq :
    ∃ nodes, t.addValueToInternalNodes c (some (c.idAt m (g m))) v =
        .ok { t with idToNode := nodes } ∧ Holds c nodes P (fun l j =>
        if j = g l ∧ m ≤ l ∧ l ≤ top then (f l j).addValue c v else f l j) := by
  have htop := S.top_lt
  have hmem := S.mem m le_rfl S.le
  have hmemTop := S.mem top S.le le_rfl
  unfold addValueToInternalNodes
  dsimp only
  rcases lt_or_ge m top with hlt | hge
  · have hne : c.idAt top (g top) ≠ c.idAt m (g m) := by
      intro h
      have := (RvtConfig.idAt_inj (S.holds.inRange _ _ hmemTop) (S.holds.inRange _ _ hmem) h).1
      omega
    have hfuel : top - m < NodeInfo.kMaxLevels + 1 := by
      unfold NodeInfo.kMaxLevels
      omega
    obtain ⟨nodes, hrun, hnodes⟩ := S.addValueLoop_eq hlt v hfuel
    have hid : ((f top (g top)).addValue c v).id = c.idAt top (g top) :=
      S.holds.id_eq top (g top) hmemTop
    have hderef : ({ t with idToNode := nodes } : RangeValidationTree).deref (c.idAt top (g top)) =
        .ok (f top (g top)) := by
      rw [deref_eq (t := { t with idToNode := nodes }) hnodes hmemTop, if_neg (by omega)]
    rw [hrun, ok_bind]
    dsimp only
    rw [if_pos hne, hderef, ok_bind]
    refine ⟨_, rfl, hnodes.set_congr _ hmemTop hid (if_pos ⟨rfl, S.le, le_rfl⟩) ?_⟩
    rintro l j - hne
    by_cases hj : j = g l ∧ m ≤ l ∧ l ≤ top
    · have hltop : l ≠ top := by
        rintro rfl
        exact hne ⟨rfl, hj.1⟩
      rw [if_pos hj, if_pos ⟨hj.1, hj.2.1, by omega⟩]
    · rw [if_neg hj, if_neg (by omega)]
  · have hmt : m = top := le_antisymm S.le hge
    subst hmt
    have hid : ((f m (g m)).addValue c v).id = c.idAt m (g m) := S.holds.id_eq m (g m) hmem
    have hloop : addValueLoop c v (NodeInfo.kMaxLevels + 1) t (c.idAt m (g m)) =
        .ok (t.write ((f m (g m)).addValue c v), c.idAt m (g m)) := by
      unfold addValueLoop
      rw [deref_eq S.holds hmem, ok_bind]
      dsimp only
      rw [if_neg (by rw [S.parent_root]; exact not_not.mpr rfl), write_root,
        ensure_decide S.root, pure_eq_ok]
    rw [hloop, ok_bind]
    dsimp only
    rw [if_neg (not_not.mpr rfl)]
    refine ⟨_, rfl, S.holds.set_congr _ hmem hid (if_pos ⟨rfl, le_rfl, le_rfl⟩) ?_⟩
    rintro l j - hne
    rw [if_neg]
    rintro ⟨rfl, h⟩
    exact hne (by rw [show l = m by omega]; exact ⟨rfl, rfl⟩)

end

end Spine

end RangeValidationTree

/-! ## Windows -/

/-- A window of RVBs, counted from 0, with their values. -/
structure RvtWindow where
  first : ℕ
  last : ℕ
  leaf : ℕ → ℤ
  le : first ≤ last

namespace RvtWindow

variable (c : RvtConfig) (w : RvtWindow)

/-- What a block brings by itself: the value of an RVB, the initial value of a node. -/
def own : ℕ → ℕ → ℤ
  | 0, j => w.leaf j
  | l + 1, j => c.initialValueAt (l + 1) j

/-- The value of a node before it is reduced. -/
def value (l j : ℕ) : ℤ := total (w.own c) c.K w.first w.last l j

/-- The first block of level `l` below block `j` of the next level that meets the window. -/
def firstChild (l j : ℕ) : ℕ := max (block c.K l w.first) (j * c.K)

/-- The end of the blocks of level `l` below block `j` of the next level. -/
def endChild (l j : ℕ) : ℕ := min (block c.K l w.last + 1) ((j + 1) * c.K)

def childIds (l j : ℕ) : List ℕ := (List.Ico (w.firstChild c l j) (w.endChild c l j)).map (c.idAt l)

/-- The node over block `j` of level `l` in the tree up to level `top`. -/
def node (top l j : ℕ) : RVTNode where
  id := c.idAt l j
  currentValue := w.value c l j % c.nodeValueModulo
  parentId := if l = top then 0 else c.idAt (l + 1) (j / c.K)
  childIds := w.childIds c (l - 1) j
  insertionCounter := w.endChild c (l - 1) j - j * c.K
  initialValue := c.initialValueAt l j

def Present (top l j : ℕ) : Prop := (1 ≤ l ∧ l ≤ top) ∧ Meets c.K w.first w.last l j

variable {c w} {top l j : ℕ}

theorem node_id (w : RvtWindow) (top l j : ℕ) : (w.node c top l j).id = c.idAt l j := rfl

theorem parentId_top (w : RvtWindow) (top j : ℕ) : (w.node c top top j).parentId = 0 := if_pos rfl

theorem block_le_block (l : ℕ) : block c.K l w.first ≤ block c.K l w.last := block_mono c.K l w.le

theorem present_first (h : 1 ≤ l ∧ l ≤ top) : w.Present c top l (block c.K l w.first) :=
  ⟨h, le_rfl, block_le_block l⟩

theorem present_last (h : 1 ≤ l ∧ l ≤ top) : w.Present c top l (block c.K l w.last) :=
  ⟨h, block_le_block l, le_rfl⟩

/-! ## The level of the root -/

theorem exists_covers (c : RvtConfig) (w : RvtWindow) :
    ∃ l, 1 ≤ l ∧ block c.K l w.first = block c.K l w.last := by
  have hlt : w.last < c.K ^ (w.last + 1) :=
    Nat.lt_of_lt_of_le (Nat.lt_pow_self (RvtConfig.two_le_K (c := c)))
      (Nat.pow_le_pow_right RvtConfig.K_pos (Nat.le_succ _))
  refine ⟨w.last + 1, Nat.le_add_left 1 _, ?_⟩
  unfold block
  rw [div_eq_of_lt hlt, div_eq_of_lt (lt_of_le_of_lt w.le hlt)]

/-- The least level with a block that covers the window. -/
def rootLevel (c : RvtConfig) (w : RvtWindow) : ℕ := Nat.find (w.exists_covers c)

theorem one_le_rootLevel : 1 ≤ w.rootLevel c := (Nat.find_spec (w.exists_covers c)).1

theorem covers_rootLevel : block c.K (w.rootLevel c) w.first = block c.K (w.rootLevel c) w.last :=
  (Nat.find_spec (w.exists_covers c)).2

theorem rootLevel_le (hl : 1 ≤ l) (h : block c.K l w.first = block c.K l w.last) :
    w.rootLevel c ≤ l := Nat.find_min' _ ⟨hl, h⟩

theorem block_lt_block (hl : 1 ≤ l) (h : l < w.rootLevel c) :
    block c.K l w.first < block c.K l w.last := by
  refine lt_of_le_of_ne (block_le_block l) fun heq => ?_
  exact absurd (rootLevel_le hl heq) (not_le.mpr h)

theorem rootLevel_eq (htop : 1 ≤ top) (h : block c.K top w.first = block c.K top w.last)
    (hlt : ∀ l, 1 ≤ l → l < top → block c.K l w.first < block c.K l w.last) :
    w.rootLevel c = top := by
  apply le_antisymm
  · exact rootLevel_le htop h
  · by_contra hnot
    have := hlt _ one_le_rootLevel (not_le.mp hnot)
    have := covers_rootLevel (c := c) (w := w)
    omega

/-- The indexes of the window have 56 bits and the span of the root has 64. -/
structure Fits (c : RvtConfig) (w : RvtWindow) : Prop where
  index_lt : w.last + 1 < 2 ^ 56
  pow_lt : c.K ^ w.rootLevel c < 2 ^ 64

theorem inRange_block {i : ℕ} (hi : i + 1 < 2 ^ 56) (hpow : c.K ^ top < 2 ^ 64) (hl : l ≤ top) :
    c.InRange l (block c.K l i) := by
  have hle := block_mul_pow_le c.K l i
  have hmono := Nat.pow_le_pow_right (RvtConfig.K_pos (c := c)) hl
  exact ⟨by omega, by omega⟩

/-! ## Values -/

theorem value_of_not_meets (h : ¬ Meets c.K w.first w.last l j) : w.value c l j = 0 :=
  total_of_not_meets _ h

/-- **The equation of a value**: the initial value and the values of the children. -/
theorem value_succ (h : Meets c.K w.first w.last (l + 1) j) :
    w.value c (l + 1) j = c.initialValueAt (l + 1) j +
      ∑ x ∈ Finset.Ico (w.firstChild c l j) (w.endChild c l j), w.value c l x := by
  have hsum : ∑ d ∈ Finset.range c.K, total (w.own c) c.K w.first w.last l (j * c.K + d) =
      ∑ x ∈ Finset.Ico (j * c.K) ((j + 1) * c.K), w.value c l x := by
    rw [Finset.sum_Ico_eq_sum_range, Nat.add_mul, Nat.one_mul, Nat.add_sub_cancel_left]
    rfl
  have hsub : Finset.Ico (w.firstChild c l j) (w.endChild c l j) ⊆
      Finset.Ico (j * c.K) ((j + 1) * c.K) := by
    apply Finset.Ico_subset_Ico
    · exact le_max_right _ _
    · exact min_le_right _ _
  unfold value at *
  rw [total, if_pos h, hsum, ← Finset.sum_subset hsub]
  · rfl
  · intro x hx hnot
    apply value_of_not_meets
    rintro ⟨h1, h2⟩
    apply hnot
    rw [Finset.mem_Ico] at hx ⊢
    unfold firstChild endChild
    omega

/-! ## A value for an index -/

/-- The window with `v` added to the value of one index. -/
def addLeaf (w : RvtWindow) (i : ℕ) (v : ℤ) : RvtWindow :=
  { w with leaf := fun j => w.leaf j + if j = i then v else 0 }

/-- The window with one more index on the right. -/
def push (w : RvtWindow) (v : ℤ) : RvtWindow where
  first := w.first
  last := w.last + 1
  leaf := fun j => if j = w.last + 1 then v else w.leaf j
  le := Nat.le_succ_of_le w.le

theorem node_addLeaf {i : ℕ} {v : ℤ} (h1 : w.first ≤ i) (h2 : i ≤ w.last) (hv : 0 ≤ v) :
    (w.addLeaf i v).node c top l j =
      if j = block c.K l i then (w.node c top l j).addValue c v else w.node c top l j := by
  have hvalue : (w.addLeaf i v).value c l j =
      w.value c l j + if j = block c.K l i then v else 0 := by
    apply total_add_zero RvtConfig.K_pos ⟨h1, h2⟩
    · intro _ _ _
      rfl
    · intro _ _
      rfl
  unfold node
  rw [hvalue]
  by_cases hj : j = block c.K l i
  · rw [if_pos hj, if_pos hj, RVTNode.addValue,
      NodeVal.add_of_nonneg (Int.emod_nonneg _ NodeVal.modulo_pos.ne') hv, Int.emod_add_emod]
    rfl
  · rw [if_neg hj, if_neg hj, add_zero]
    rfl

/-! ## One more index -/

/-- What a new index brings to the blocks over it. -/
def brought (c : RvtConfig) (w : RvtWindow) (v : ℤ) (l : ℕ) : ℤ :=
  addedRight ((w.push v).own c) c.K w.last l

theorem brought_zero : w.brought c v 0 = v := if_pos rfl

theorem brought_succ_of_carries (h : Carries c.K (l + 1) w.last) : w.brought c v (l + 1) =
      w.brought c v l + c.initialValueAt (l + 1) (block c.K (l + 1) (w.last + 1)) := by
  unfold brought
  rw [addedRight, if_pos h]
  rfl

theorem brought_succ_of_not (h : ¬ Carries c.K (l + 1) w.last) :
    w.brought c v (l + 1) = w.brought c v l := by
  unfold brought
  rw [addedRight, if_neg h, add_zero]

theorem value_push (l j : ℕ) : (w.push v).value c l j =
      w.value c l j + if j = block c.K l (w.last + 1) then w.brought c v l else 0 := by
  unfold value
  rw [show (w.push v).last = w.last + 1 from rfl, show (w.push v).first = w.first from rfl,
    total_succ_right _ RvtConfig.K_pos w.le, total_congr (w.own c) RvtConfig.K_pos w.le]
  · rfl
  · intro i _ hi
    exact if_neg (by omega)
  · intro _ _
    rfl

theorem firstChild_push (l j : ℕ) : (w.push v).firstChild c l j = w.firstChild c l j := rfl

theorem endChild_push_of_lt (h : j < block c.K (l + 1) (w.last + 1)) :
    (w.push v).endChild c l j = w.endChild c l j := by
  have h1 := (block_sub_lt (RvtConfig.K_pos (c := c)) l (w.last + 1)).1
  have h2 := block_succ_index_le c.K l w.last
  have h3 : (j + 1) * c.K ≤ block c.K (l + 1) (w.last + 1) * c.K := mul_le_mul_right _ h
  have h4 := block_mono c.K l (le_add_right w.last 1)
  unfold endChild
  rw [show (w.push v).last = w.last + 1 from rfl]
  omega

theorem endChild_last (w : RvtWindow) (l : ℕ) :
    w.endChild c l (block c.K (l + 1) w.last) = block c.K l w.last + 1 := by
  have := (block_sub_lt (RvtConfig.K_pos (c := c)) l w.last).2
  unfold endChild
  omega

/-- The new index opens block `l + 1`: its node has one child. -/
theorem node_push_new (h : Carries c.K (l + 1) w.last) :
    (w.push v).node c top (l + 1) (block c.K (l + 1) (w.last + 1)) =
      { id := c.idAt (l + 1) (block c.K (l + 1) (w.last + 1))
        currentValue := w.brought c v (l + 1) % c.nodeValueModulo
        parentId := if l + 1 = top then 0
          else c.idAt (l + 1 + 1) (block c.K (l + 1 + 1) (w.last + 1))
        childIds := [c.idAt l (block c.K l (w.last + 1))]
        insertionCounter := 1
        initialValue := c.initialValueAt (l + 1) (block c.K (l + 1) (w.last + 1)) } := by
  have hnew := h.block_succ_index
  have hmul := h.block_eq_mul
  have hbelow := h.of_succ.block_succ_index
  have hle := block_mono c.K l w.le
  have hvalue : (w.push v).value c (l + 1) (block c.K (l + 1) (w.last + 1)) =
      w.brought c v (l + 1) := by
    rw [value_push, if_pos rfl, value_of_not_meets, zero_add]
    unfold Meets
    omega
  have hend : (w.push v).endChild c l (block c.K (l + 1) (w.last + 1)) =
      block c.K l (w.last + 1) + 1 := endChild_last (w.push v) l
  have hfirst : (w.push v).firstChild c l (block c.K (l + 1) (w.last + 1)) =
      block c.K l (w.last + 1) := by
    unfold firstChild
    rw [show (w.push v).first = w.first from rfl, ← hmul]
    omega
  unfold node childIds
  rw [Nat.add_sub_cancel, hvalue, hend, hfirst, List.Ico.succ_singleton, ← hmul,
    Nat.add_sub_cancel_left, ← block_succ]
  rfl

/-- The new index does not open block `l + 1`: its node gets another child if the index opens the
block below, and else only another value. -/
theorem node_push_last (h : ¬ Carries c.K (l + 1) w.last) :
    (w.push v).node c top (l + 1) (block c.K (l + 1) w.last) =
      { w.node c top (l + 1) (block c.K (l + 1) w.last) with
        currentValue := (w.value c (l + 1) (block c.K (l + 1) w.last) + w.brought c v l) %
          c.nodeValueModulo
        childIds := w.childIds c l (block c.K (l + 1) w.last) ++
          if Carries c.K l w.last then [c.idAt l (block c.K l (w.last + 1))] else []
        insertionCounter := block c.K l (w.last + 1) + 1 - block c.K (l + 1) w.last * c.K } := by
  have hsame := block_succ_index_of_not h
  have hend : (w.push v).endChild c l (block c.K (l + 1) w.last) =
      block c.K l (w.last + 1) + 1 := by
    rw [← hsame]
    exact endChild_last (w.push v) l
  have hchild : (w.push v).childIds c l (block c.K (l + 1) w.last) =
      w.childIds c l (block c.K (l + 1) w.last) ++
        if Carries c.K l w.last then [c.idAt l (block c.K l (w.last + 1))] else [] := by
    unfold childIds
    rw [hend, firstChild_push, endChild_last]
    split_ifs with hc
    · have hle : w.firstChild c l (block c.K (l + 1) w.last) ≤ block c.K l w.last + 1 := by
        have h1 := (block_sub_lt (RvtConfig.K_pos (c := c)) l w.last).1
        have h2 := block_mono c.K l w.le
        unfold firstChild
        omega
      rw [hc.block_succ_index, List.Ico.succ_top hle, List.map_append]
      rfl
    · rw [block_succ_index_of_not hc, List.append_nil]
  unfold node
  rw [Nat.add_sub_cancel, hend, hchild, value_push, hsame, if_pos rfl, brought_succ_of_not v h]

theorem node_push_of_lt (hl : 1 ≤ l) (h : j < block c.K l (w.last + 1)) :
    (w.push v).node c top l j = w.node c top l j := by
  obtain ⟨l, rfl⟩ := Nat.exists_eq_add_of_le' hl
  unfold node childIds
  rw [Nat.add_sub_cancel, endChild_push_of_lt v h, firstChild_push, value_push, if_neg (by omega),
    add_zero]

end RvtWindow

/-! ## Trees of windows -/

/-- The tree is the tree of the window up to level `top`. -/
structure Rep (c : RvtConfig) (w : RvtWindow) (top : ℕ) (t : RangeValidationTree) : Prop where
  one_le : 1 ≤ top
  covers : block c.K top w.first = block c.K top w.last
  nodes : Holds c t.idToNode (w.Present c top) (w.node c top)
  root : t.root = some (c.idAt top (block c.K top w.first))
  rightmost : ∀ l, t.rightmostRvtNode l =
    if 1 ≤ l ∧ l ≤ top then some (c.idAt l (block c.K l w.last)) else none
  leftmost : ∀ l, t.leftmostRvtNode l =
    if 1 ≤ l ∧ l ≤ top then some (c.idAt l (block c.K l w.first)) else none
  erase : t.nodeIdsToErase = []

namespace Rep

variable {c : RvtConfig} {w : RvtWindow} {top l j : ℕ} {t t' : RangeValidationTree}

section

variable (R : Rep c w top t)

include R

theorem fits : c.InRange top (block c.K top w.last) :=
  R.nodes.inRange _ _ (RvtWindow.present_last ⟨R.one_le, le_rfl⟩)

/-- Trees of one window differ at most in the stored bounds. -/
theorem unique (R' : Rep c w top t') (hmin : t.minRvbIndex = t'.minRvbIndex)
    (hmax : t.maxRvbIndex = t'.maxRvbIndex) : t = t' := by
  have hnodes := R.nodes.unique R'.nodes
  have hright : t.rightmostRvtNode = t'.rightmostRvtNode := by
    funext l
    rw [R.rightmost, R'.rightmost]
  have hleft : t.leftmostRvtNode = t'.leftmostRvtNode := by
    funext l
    rw [R.leftmost, R'.leftmost]
  have hroot := R.root.trans R'.root.symm
  have herase := R.erase.trans R'.erase.symm
  cases t
  cases t'
  simp only at hnodes hright hleft hroot herase hmin hmax
  subst hnodes hright hleft hroot herase hmin hmax
  rfl

theorem setBounds (min max : ℕ) : Rep c w top { t with minRvbIndex := min, maxRvbIndex := max } :=
  ⟨R.one_le, R.covers, R.nodes, R.root, R.rightmost, R.leftmost, R.erase⟩

theorem spine {i m : ℕ} (hm : 1 ≤ m) (hmt : m ≤ top) (h1 : w.first ≤ i) (h2 : i ≤ w.last) :
    t.Spine c (w.Present c top) (w.node c top) (fun l => block c.K l i) m top where
  le := hmt
  holds := R.nodes
  mem l hl hlt := ⟨⟨by omega, hlt⟩, block_mono c.K l h1, block_mono c.K l h2⟩
  parent l _ hlt := by
    show (if l = top then 0 else c.idAt (l + 1) (block c.K l i / c.K)) = _
    rw [if_neg (by omega), block_succ]
  parent_root := if_pos rfl
  root := by
    have h3 := block_mono c.K top h1
    have h4 := block_mono c.K top h2
    rw [R.root, show block c.K top i = block c.K top w.first by have := R.covers; omega]

theorem not_root {i l : ℕ} (hl : 1 ≤ l) (htop : l < top) (h1 : w.first ≤ i) (h2 : i ≤ w.last) :
    ¬ t.root = some (w.node c top l (block c.K l i)).id := by
  rw [RvtWindow.node_id, (R.spine hl htop.le h1 h2).root_eq_iff le_rfl htop.le]
  omega

theorem parentId_node {i l : ℕ} (hl : 1 ≤ l) (htop : l < top) (h1 : w.first ≤ i) (h2 : i ≤ w.last) :
    (w.node c top l (block c.K l i)).parentId = c.idAt (l + 1) (block c.K (l + 1) i) :=
  (R.spine hl htop.le h1 h2).parent l le_rfl htop

/-- **A value for an index**: adding it on the way to the root adds it to the index. -/
theorem addLeaf {i : ℕ} {v : ℤ} (h1 : w.first ≤ i) (h2 : i ≤ w.last) (hv : 0 ≤ v) :
    ∃ nodes, t.addValueToInternalNodes c (some (c.idAt 1 (block c.K 1 i))) v =
        .ok { t with idToNode := nodes } ∧
      Rep c (w.addLeaf i v) top { t with idToNode := nodes } := by
  obtain ⟨nodes, hrun, hnodes⟩ :=
    (R.spine le_rfl R.one_le h1 h2).addValueToInternalNodes_eq v
  refine ⟨nodes, hrun, R.one_le, R.covers, hnodes.congr (fun _ _ => Iff.rfl) ?_, R.root,
    R.rightmost, R.leftmost, R.erase⟩
  intro l j hP
  rw [RvtWindow.node_addLeaf h1 h2 hv]
  by_cases hj : j = block c.K l i
  · rw [if_pos ⟨hj, hP.1⟩, if_pos hj]
  · rw [if_neg fun h => hj h.1, if_neg hj]

end

end Rep

end ConcordBft
