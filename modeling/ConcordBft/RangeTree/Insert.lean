import ConcordBft.RangeTree.Window

/-!
# Adding a node on the right

A new index opens the blocks of the levels that `Carries`. `addInternalNode` builds their nodes
from the bottom, a loose spine beside the tree (`Loose`), until the spine meets an open node of the
tree or, at the level of the root, a common parent of the root and the spine. The values that are
added on the way are those of the new nodes; the value of the index itself comes last.
-/

namespace ConcordBft

open Verif Verif.Exec Verif.Kary Nat Function RvtConfig NodeVal

namespace RangeValidationTree

variable {c : RvtConfig} {t : RangeValidationTree}

theorem checkLevel_of_lt {l : ℕ} (h : l < 255) : checkLevel l = .ok () := if_pos h

theorem updateOpenRvtNodeArrays_add {l j : ℕ} (hr : c.InRange l j)
    (hboth : t.leftmostRvtNode l = t.rightmostRvtNode l ∨
      ((t.leftmostRvtNode l).isSome = true ∧ (t.rightmostRvtNode l).isSome = true)) :
    t.updateOpenRvtNodeArrays c .addNodeToRight (c.idAt l j) = .ok { t with
        rightmostRvtNode := update t.rightmostRvtNode l (some (c.idAt l j))
        leftmostRvtNode := update t.leftmostRvtNode l
          ((t.leftmostRvtNode l).or (some (c.idAt l j))) } := by
  have hl := hr.level_lt
  have hcheck : (decide (t.leftmostRvtNode l = t.rightmostRvtNode l) ||
      ((t.leftmostRvtNode l).isSome && (t.rightmostRvtNode l).isSome)) = true := by
    rcases hboth with h | ⟨h1, h2⟩
    · rw [decide_eq_true h, Bool.true_or]
    · rw [h1, h2, Bool.and_self, Bool.or_true]
  unfold updateOpenRvtNodeArrays
  rw [hr.level_idAt]
  dsimp only
  rw [checkLevel_of_lt (by omega), ok_bind, hcheck, ensure_true, ok_bind]
  rfl

variable {f : ℕ → ℕ → RVTNode} {P : ℕ → ℕ → Prop}

theorem openForInsertion_eq {l j : ℕ}
    (H : Holds c t.idToNode P f) (hP : P l j) (hright : t.rightmostRvtNode l = some (c.idAt l j))
    (hle : (f l j).insertionCounter ≤ c.K) : t.openForInsertion c l =
      .ok (if (f l j).insertionCounter < c.K then some (f l j) else none) := by
  have hl := (H.inRange l j hP).level_lt
  unfold openForInsertion
  rw [checkLevel_of_lt (by omega), ok_bind, hright]
  dsimp only
  rw [deref_eq H hP, ok_bind, if_congr (openForInsertion_iff hle) rfl rfl]
  rfl

section

variable {arr g : ℕ → Option ℕ} {n : ℕ}

theorem update_succ_ite (h : ∀ l, arr l = if 1 ≤ l ∧ l ≤ n then g l else none) (l : ℕ) :
    update arr (n + 1) (g (n + 1)) l = if 1 ≤ l ∧ l ≤ n + 1 then g l else none := by
  rcases eq_or_ne l (n + 1) with rfl | hne
  · rw [update_self, if_pos (by omega)]
  · rw [update_of_ne hne, h]
    exact if_congr (by omega) rfl rfl

theorem update_none_ite (h : ∀ l, arr l = if 1 ≤ l ∧ l ≤ n + 1 then g l else none) (l : ℕ) :
    update arr (n + 1) none l = if 1 ≤ l ∧ l ≤ n then g l else none := by
  rcases eq_or_ne l (n + 1) with rfl | hne
  · rw [update_self, if_neg (by omega)]
  · rw [update_of_ne hne, h]
    exact if_congr (by omega) rfl rfl

end

theorem insertNode_of_none {node : RVTNode} (h : t.idToNode.lookup node.id = none) :
    t.insertNode node = .ok (t.write node) := by
  unfold insertNode
  rw [h]
  rfl

def SameBounds (t t' : RangeValidationTree) : Prop :=
  t'.minRvbIndex = t.minRvbIndex ∧ t'.maxRvbIndex = t.maxRvbIndex

theorem SameBounds.refl (t : RangeValidationTree) : SameBounds t t := ⟨rfl, rfl⟩

theorem SameBounds.trans {t₁ t₂ t₃ : RangeValidationTree} (h : SameBounds t₁ t₂)
    (h' : SameBounds t₂ t₃) : SameBounds t₁ t₃ := ⟨h'.1.trans h.1, h'.2.trans h.2⟩

end RangeValidationTree

namespace RvtWindow

variable {c : RvtConfig} {w : RvtWindow} {top l j : ℕ}

theorem length_childIds_le (w : RvtWindow) (l j : ℕ) : (w.childIds c l j).length ≤ c.K := by
  unfold childIds firstChild endChild
  rw [List.length_map, List.Ico.length, add_mul, one_mul]
  omega

/-- The counter of the last node of a level: it is full when the next index opens a block. -/
theorem counter_last (w : RvtWindow) (top l : ℕ) :
    (w.node c top (l + 1) (block c.K (l + 1) w.last)).insertionCounter =
      block c.K l w.last + 1 - block c.K (l + 1) w.last * c.K := by
  show w.endChild c l _ - _ = _
  rw [endChild_last]

theorem counter_last_of_carries (top : ℕ) (h : Carries c.K (l + 1) w.last) :
    (w.node c top (l + 1) (block c.K (l + 1) w.last)).insertionCounter = c.K := by
  have h1 := h.block_eq_mul
  have h2 := h.of_succ.block_succ_index
  rw [h.block_succ_index, add_mul, one_mul] at h1
  rw [counter_last]
  omega

theorem counter_last_of_not (top : ℕ) (h : ¬ Carries c.K (l + 1) w.last)
    (hl : Carries c.K l w.last) :
    (w.node c top (l + 1) (block c.K (l + 1) w.last)).insertionCounter < c.K := by
  have h1 := (block_sub_lt (RvtConfig.K_pos (c := c)) l (w.last + 1)).2
  have h2 := (block_sub_lt (RvtConfig.K_pos (c := c)) l w.last).1
  rw [block_succ_index_of_not h, hl.block_succ_index, add_mul, one_mul] at h1
  rw [counter_last]
  omega

theorem node_top_congr {top' : ℕ} (h : l ≠ top) (h' : l ≠ top') :
    w.node c top l j = w.node c top' l j := by
  unfold node
  rw [if_neg h, if_neg h']

theorem add_brought {x y : ℤ} : add c (x % c.nodeValueModulo) (y % c.nodeValueModulo) =
    (x + y) % c.nodeValueModulo := by
  rw [add_of_nonneg (Int.emod_nonneg _ modulo_pos.ne')
    (Int.emod_nonneg _ modulo_pos.ne'), ← Int.add_emod]

theorem initialValueAt_emod (l j : ℕ) :
    c.initialValueAt l j % c.nodeValueModulo = c.initialValueAt l j := by
  unfold initialValueAt
  exact Int.emod_eq_of_lt (ofBytes_nonneg _) (Int.tmod_lt_of_pos _ modulo_pos)

theorem block_div (l i : ℕ) : block c.K l i / c.K = block c.K (l + 1) i := (block_succ c.K l i).symm

theorem node_setParent (w : RvtWindow) (l i : ℕ) (h : l ≠ top) :
    { w.node c l l (block c.K l i) with parentId := c.idAt (l + 1) (block c.K (l + 1) i) } =
      w.node c top l (block c.K l i) := by
  unfold node
  rw [if_neg h, block_div]

/-- The parent of the block of `i` on level `l`, right after its first push. -/
def fresh (c : RvtConfig) (l i : ℕ) : RVTNode :=
  { c.born (l + 1) (block c.K (l + 1) i) with
    childIds := [c.idAt l (block c.K l i)]
    insertionCounter := block c.K l i - block c.K (l + 1) i * c.K + 1 }

section

variable {i : ℕ} (hr : c.InRange (l + 1) (block c.K (l + 1) i))
  (hchild : c.InRange l (block c.K l i))

include hr hchild

theorem new_eq_born : RVTNode.new c l (block c.K l i * c.K ^ l + 1) =
    .ok (c.born (l + 1) (block c.K (l + 1) i)) := by
  rw [← block_div] at hr
  rw [hr.new hchild, block_div]

theorem push_eq_fresh : (c.born (l + 1) (block c.K (l + 1) i)).pushChildId c
    (c.idAt l (block c.K l i)) = .ok (fresh c l i) := by
  rw [← block_div] at hr
  rw [hr.pushChildId_first hchild rfl rfl, block_div]
  rfl

end

theorem fresh_addValue (h : Carries c.K (l + 1) w.last) :
    (fresh c l (w.last + 1)).addValue c (w.brought c 0 l % c.nodeValueModulo) =
      (w.push 0).node c (l + 1) (l + 1) (block c.K (l + 1) (w.last + 1)) := by
  have hcounter : block c.K l (w.last + 1) - block c.K (l + 1) (w.last + 1) * c.K + 1 = 1 := by
    rw [← h.block_eq_mul, Nat.sub_self]
  have hvalue : add c (c.initialValueAt (l + 1) (block c.K (l + 1) (w.last + 1)))
      (w.brought c 0 l % c.nodeValueModulo) = w.brought c 0 (l + 1) % c.nodeValueModulo := by
    rw [← initialValueAt_emod, add_brought, brought_succ_of_carries 0 h, add_comm]
  rw [node_push_new 0 h, if_pos rfl, RVTNode.addValue, fresh, hcounter]
  dsimp only [born]
  rw [hvalue]

/-- The last node of a level with the next block as one more child. -/
def attached (c : RvtConfig) (w : RvtWindow) (top l : ℕ) : RVTNode :=
  { w.node c top (l + 1) (block c.K (l + 1) w.last) with
    childIds := w.childIds c l (block c.K (l + 1) w.last) ++ [c.idAt l (block c.K l (w.last + 1))]
    insertionCounter :=
      (w.node c top (l + 1) (block c.K (l + 1) w.last)).insertionCounter + 1 }

theorem push_eq_attached (top : ℕ) (hr : c.InRange l (block c.K l (w.last + 1)))
    (h : ¬ Carries c.K (l + 1) w.last) (hl : Carries c.K l w.last) :
    (w.node c top (l + 1) (block c.K (l + 1) w.last)).pushChildId c
      (c.idAt l (block c.K l (w.last + 1))) = .ok (w.attached c top l) := by
  refine pushChildId_next ?_ (counter_last_of_not top h hl)
  intro last hlast
  have hid : last ∈ w.childIds c l (block c.K (l + 1) w.last) := List.mem_of_mem_getLast? hlast
  unfold childIds at hid
  obtain ⟨x, hx, rfl⟩ := List.mem_map.mp hid
  rw [List.Ico.mem, endChild_last] at hx
  refine idAt_lt hr ?_
  rw [hl.block_succ_index]
  exact hx.2

theorem attached_addValue (top : ℕ) (h : ¬ Carries c.K (l + 1) w.last) (hl : Carries c.K l w.last) :
    (w.attached c top l).addValue c (w.brought c 0 l % c.nodeValueModulo) =
      (w.push 0).node c top (l + 1) (block c.K (l + 1) w.last) := by
  have hle := (block_sub_lt (RvtConfig.K_pos (c := c)) l w.last).1
  have hcounter : block c.K l w.last + 1 - block c.K (l + 1) w.last * c.K + 1 =
      block c.K l (w.last + 1) + 1 - block c.K (l + 1) w.last * c.K := by
    rw [hl.block_succ_index]
    omega
  rw [node_push_last 0 h, if_pos hl, RVTNode.addValue, attached, counter_last, hcounter]
  dsimp only
  rw [node, add_brought]

theorem length_attached_le (top : ℕ) (h : ¬ Carries c.K (l + 1) w.last)
    (hl : Carries c.K l w.last) : (w.attached c top l).childIds.length ≤ c.K := by
  have heq : (w.attached c top l).childIds = (w.push 0).childIds c l (block c.K (l + 1) w.last) :=
    congrArg RVTNode.childIds (attached_addValue top h hl)
  rw [heq]
  exact length_childIds_le _ _ _

theorem lift_eq (h : ¬ Carries c.K l w.last) :
    (w.node c top (l + 1) (block c.K (l + 1) w.last)).addValue c
        (w.brought c 0 l % c.nodeValueModulo) =
      (w.push 0).node c top (l + 1) (block c.K (l + 1) w.last) := by
  rw [node_push_last 0 fun h' => h h'.of_succ, if_neg h, List.append_nil,
    block_succ_index_of_not h, RVTNode.addValue]
  have hcounter := counter_last (c := c) w top l
  rw [← hcounter, node, add_brought]
  rfl

theorem currentValue_new (h : Carries c.K l w.last) (top : ℕ) :
    ((w.push 0).node c top l (block c.K l (w.last + 1))).currentValue =
      w.brought c 0 l % c.nodeValueModulo := by
  have hnew := h.block_succ_index
  show (w.push 0).value c l _ % _ = _
  rw [value_push, if_pos rfl, value_of_not_meets, zero_add]
  unfold Meets
  omega

end RvtWindow

/-! ## The loose spine -/

/-- The tree of `w` up to level `top`, and beside it a spine of new nodes up to level `m`. -/
structure Loose (c : RvtConfig) (w : RvtWindow) (top m : ℕ) (t : RangeValidationTree) : Prop where
  one_le : 1 ≤ m
  le : m ≤ top
  carries : Carries c.K m w.last
  covers : block c.K top w.first = block c.K top w.last
  nodes : Holds c t.idToNode
    (fun l j => w.Present c top l j ∨ ((1 ≤ l ∧ l ≤ m) ∧ j = block c.K l (w.last + 1)))
    (fun l j => if l ≤ m ∧ j = block c.K l (w.last + 1) then (w.push 0).node c m l j
      else w.node c top l j)
  root : t.root = some (c.idAt top (block c.K top w.first))
  rightmost : ∀ l, t.rightmostRvtNode l =
    if 1 ≤ l ∧ l ≤ m then some (c.idAt l (block c.K l (w.last + 1)))
    else if 1 ≤ l ∧ l ≤ top then some (c.idAt l (block c.K l w.last)) else none
  leftmost : ∀ l, t.leftmostRvtNode l =
    if 1 ≤ l ∧ l ≤ top then some (c.idAt l (block c.K l w.first)) else none
  erase : t.nodeIdsToErase = []

/-- The tree of `w` with one more index, where the nodes above level `k` do not have the values of
the new nodes yet. -/
structure Lifted (c : RvtConfig) (w : RvtWindow) (top k : ℕ) (t : RangeValidationTree) : Prop where
  one_le : 1 ≤ k
  le : k ≤ top
  not_carries : ¬ Carries c.K k w.last
  covers : block c.K top w.first = block c.K top w.last
  nodes : Holds c t.idToNode ((w.push 0).Present c top)
    (fun l j => if l ≤ k then (w.push 0).node c top l j else w.node c top l j)
  root : t.root = some (c.idAt top (block c.K top w.first))
  rightmost : ∀ l, t.rightmostRvtNode l =
    if 1 ≤ l ∧ l ≤ top then some (c.idAt l (block c.K l (w.last + 1))) else none
  leftmost : ∀ l, t.leftmostRvtNode l =
    if 1 ≤ l ∧ l ≤ top then some (c.idAt l (block c.K l w.first)) else none
  erase : t.nodeIdsToErase = []

namespace Loose

variable {c : RvtConfig} {w : RvtWindow} {top m : ℕ} {t : RangeValidationTree}

open RangeValidationTree RvtWindow

section

variable (L : Loose c w top m t)

include L

theorem inRange : c.InRange m (block c.K m (w.last + 1)) :=
  L.nodes.inRange _ _ (.inr ⟨⟨L.one_le, le_rfl⟩, rfl⟩)

theorem deref_end : t.deref (c.idAt m (block c.K m (w.last + 1))) =
      .ok ((w.push 0).node c m m (block c.K m (w.last + 1))) := by
  rw [deref_eq L.nodes (.inr ⟨⟨L.one_le, le_rfl⟩, rfl⟩), if_pos ⟨le_rfl, rfl⟩]

theorem lookup_next (hcarry : Carries c.K (m + 1) w.last)
    (hr : c.InRange (m + 1) (block c.K (m + 1) (w.last + 1))) :
    t.idToNode.lookup (c.idAt (m + 1) (block c.K (m + 1) (w.last + 1))) = none := by
  have := hcarry.block_succ_index
  refine L.nodes.lookup_eq_none hr ?_
  rintro (⟨-, -, h⟩ | ⟨⟨-, h⟩, -⟩) <;> omega

theorem nodes_succ (hr : c.InRange (m + 1) (block c.K (m + 1) (w.last + 1))) :
    Holds c ((t.idToNode.insert (c.idAt (m + 1) (block c.K (m + 1) (w.last + 1)))
        ((w.push 0).node c (m + 1) (m + 1) (block c.K (m + 1) (w.last + 1)))).insert
        (c.idAt m (block c.K m (w.last + 1)))
        ((w.push 0).node c (m + 1) m (block c.K m (w.last + 1))))
      (fun l j => w.Present c top l j ∨ ((1 ≤ l ∧ l ≤ m + 1) ∧ j = block c.K l (w.last + 1)))
      (fun l j => if l ≤ m + 1 ∧ j = block c.K l (w.last + 1) then (w.push 0).node c (m + 1) l j
        else w.node c top l j) := by
  have hm := L.one_le
  have h1 := L.nodes.insert hr
    ((w.push 0).node c (m + 1) (m + 1) (block c.K (m + 1) (w.last + 1))) rfl
  refine Holds.of_iff (h1.set_congr ((w.push 0).node c (m + 1) m (block c.K m (w.last + 1)))
    (.inl (.inr ⟨⟨hm, le_rfl⟩, rfl⟩)) rfl ?_ fun l j _ hne => ?_) fun l j => ?_
  · exact if_pos ⟨le_succ m, rfl⟩
  · by_cases hj : j = block c.K l (w.last + 1)
    · subst hj
      rcases lt_trichotomy l (m + 1) with hlt | rfl | hgt
      · have hlm : l ≠ m := fun h => hne ⟨h, by rw [h]⟩
        rw [if_neg (by omega), if_pos ⟨by omega, rfl⟩, if_pos ⟨by omega, rfl⟩]
        exact node_top_congr hlm (by omega)
      · rw [if_pos ⟨rfl, rfl⟩, if_pos ⟨le_rfl, rfl⟩]
      · rw [if_neg (by omega), if_neg (by omega), if_neg (by omega)]
    · have h4 : ¬ (l = m + 1 ∧ j = block c.K (m + 1) (w.last + 1)) := by
        rintro ⟨rfl, h⟩
        exact hj h
      rw [if_neg h4, if_neg fun h => hj h.2, if_neg fun h => hj h.2]
  · constructor
    · rintro ((h | ⟨h, rfl⟩) | ⟨rfl, rfl⟩)
      · exact .inl h
      · exact .inr ⟨by omega, rfl⟩
      · exact .inr ⟨by omega, rfl⟩
    · rintro (h | ⟨h, rfl⟩)
      · exact .inl (.inl h)
      · rcases lt_or_ge m l with hlt | hge
        · obtain rfl : l = m + 1 := by omega
          exact .inr ⟨rfl, rfl⟩
        · exact .inl (.inr ⟨by omega, rfl⟩)

section

variable (hlt : m < top)

include hlt

theorem update_succ (hcarry : Carries c.K (m + 1) w.last)
    (hr : c.InRange (m + 1) (block c.K (m + 1) (w.last + 1))) {nodes : Finmap fun _ : ℕ => RVTNode}
    (hnodes : nodes = (t.idToNode.insert (c.idAt (m + 1) (block c.K (m + 1) (w.last + 1)))
        ((w.push 0).node c (m + 1) (m + 1) (block c.K (m + 1) (w.last + 1)))).insert
        (c.idAt m (block c.K m (w.last + 1)))
        ((w.push 0).node c (m + 1) m (block c.K m (w.last + 1)))) :
    Loose c w top (m + 1) { t with
      idToNode := nodes
      rightmostRvtNode := update t.rightmostRvtNode (m + 1)
        (some (c.idAt (m + 1) (block c.K (m + 1) (w.last + 1))))
      leftmostRvtNode := update t.leftmostRvtNode (m + 1) ((t.leftmostRvtNode (m + 1)).or
          (some (c.idAt (m + 1) (block c.K (m + 1) (w.last + 1))))) } := by
  refine ⟨by omega, hlt, hcarry, L.covers, ?_, L.root, ?_, ?_, L.erase⟩
  · rw [hnodes]
    exact L.nodes_succ hr
  · intro l
    show update t.rightmostRvtNode (m + 1) _ l = _
    rcases eq_or_ne l (m + 1) with rfl | hne
    · rw [update_self, if_pos (by omega)]
    · rw [update_of_ne hne, L.rightmost]
      by_cases h : 1 ≤ l ∧ l ≤ m
      · rw [if_pos h, if_pos (by omega)]
      · rw [if_neg h, if_neg (show ¬ (1 ≤ l ∧ l ≤ m + 1) by omega)]
  · intro l
    show update t.leftmostRvtNode (m + 1) _ l = _
    rcases eq_or_ne l (m + 1) with rfl | hne
    · rw [update_self, L.leftmost, if_pos (by omega)]
      rfl
    · rw [update_of_ne hne, L.leftmost]

theorem both_isSome :
    (t.leftmostRvtNode (m + 1)).isSome = true ∧ (t.rightmostRvtNode (m + 1)).isSome = true := by
  rw [L.leftmost, L.rightmost, if_pos (by omega), if_neg (by omega), if_pos (by omega)]
  exact ⟨rfl, rfl⟩

theorem openForInsertion_next
    (hle : (w.node c top (m + 1) (block c.K (m + 1) w.last)).insertionCounter ≤ c.K) :
    t.openForInsertion c (m + 1) =
      .ok (if (w.node c top (m + 1) (block c.K (m + 1) w.last)).insertionCounter < c.K then
        some (w.node c top (m + 1) (block c.K (m + 1) w.last)) else none) := by
  have hright : t.rightmostRvtNode (m + 1) = some (c.idAt (m + 1) (block c.K (m + 1) w.last)) := by
    rw [L.rightmost, if_neg (by omega), if_pos (by omega)]
  have hopen := openForInsertion_eq L.nodes (.inl (present_last ⟨by omega, hlt⟩)) hright
  rw [if_neg (by omega)] at hopen
  exact hopen hle

/-- **A closed node above the spine**: the spine grows by one level. -/
theorem connectToParent_closed (hcarry : Carries c.K (m + 1) w.last)
    (hr : c.InRange (m + 1) (block c.K (m + 1) (w.last + 1))) :
    ∃ t', t.connectToParent c ((w.push 0).node c m m (block c.K m (w.last + 1)))
        (w.brought c 0 m % c.nodeValueModulo) =
        .ok (t', c.idAt (m + 1) (block c.K (m + 1) (w.last + 1)),
          w.brought c 0 (m + 1) % c.nodeValueModulo) ∧
      Loose c w top (m + 1) t' ∧ SameBounds t t' := by
  have hcounter := counter_last_of_carries top hcarry
  have hopen := L.openForInsertion_next hlt hcounter.le
  rw [if_neg (Nat.not_lt.mpr hcounter.ge)] at hopen
  have hval : add c (w.brought c 0 m % c.nodeValueModulo) (fresh c m (w.last + 1)).initialValue =
      w.brought c 0 (m + 1) % c.nodeValueModulo := by
    rw [fresh, born, ← initialValueAt_emod, add_brought, brought_succ_of_carries 0 hcarry]
  unfold connectToParent
  rw [node_id, L.inRange.level_idAt, L.inRange.rvbIndex_idAt]
  dsimp only
  rw [if_pos (parentId_top _ _ _), hopen, ok_bind]
  dsimp only
  rw [new_eq_born hr L.inRange, ok_bind, push_eq_fresh hr L.inRange, ok_bind, fresh_addValue hcarry,
    insertNode_of_none (L.lookup_next hcarry hr), ok_bind,
    show (fresh c m (w.last + 1)).id = c.idAt (m + 1) (block c.K (m + 1) (w.last + 1)) from rfl,
    updateOpenRvtNodeArrays_add hr, ok_bind, hval]
  swap
  · exact .inr (L.both_isSome hlt)
  refine ⟨_, rfl, L.update_succ hlt hcarry hr ?_, rfl, rfl⟩
  rw [← node_setParent _ _ _ m.succ_ne_self.symm]
  rfl

section

variable (hcarry : ¬ Carries c.K (m + 1) w.last)

include hcarry

theorem nodes_attach : Holds c ((t.idToNode.insert (c.idAt m (block c.K m (w.last + 1)))
        ((w.push 0).node c top m (block c.K m (w.last + 1)))).insert
        (c.idAt (m + 1) (block c.K (m + 1) w.last))
        ((w.push 0).node c top (m + 1) (block c.K (m + 1) w.last)))
      ((w.push 0).Present c top)
      (fun l j => if l ≤ m + 1 then (w.push 0).node c top l j else w.node c top l j) := by
  have hm := L.one_le
  have h1 := L.nodes.set (l := m) (j := block c.K m (w.last + 1)) (.inr ⟨⟨hm, le_rfl⟩, rfl⟩)
    ((w.push 0).node c top m (block c.K m (w.last + 1))) rfl
  have habove : ∀ l, m + 1 ≤ l → block c.K l (w.last + 1) = block c.K l w.last :=
    fun l hl => block_succ_index_of_not fun h => hcarry (h.of_le hl)
  have hbelow : ∀ l, l ≤ m → block c.K l (w.last + 1) = block c.K l w.last + 1 :=
    fun l hl => (L.carries.of_le hl).block_succ_index
  have hle : ∀ l, block c.K l w.first ≤ block c.K l w.last := fun l => block_le_block l
  refine Holds.of_iff (h1.set_congr ((w.push 0).node c top (m + 1) (block c.K (m + 1) w.last))
    (.inl (present_last (l := m + 1) ⟨by omega, hlt⟩)) rfl ?_ fun l j hP hne => ?_) fun l j => ?_
  · exact if_pos le_rfl
  · have hl1 : 1 ≤ l := by
      rcases hP with ⟨h, -⟩ | ⟨h, -⟩ <;> exact h.1
    rcases lt_trichotomy l (m + 1) with hlm | rfl | hlm
    · rw [if_pos (show l ≤ m + 1 by omega)]
      by_cases hj : j = block c.K l (w.last + 1)
      · subst hj
        rcases eq_or_ne l m with rfl | hne
        · rw [if_pos ⟨rfl, rfl⟩]
        · rw [if_neg (by omega), if_pos ⟨by omega, rfl⟩]
          exact node_top_congr hne (by omega)
      · have hneg : ¬ (l = m ∧ j = block c.K m (w.last + 1)) := by
          rintro ⟨rfl, h⟩
          exact hj h
        rw [if_neg hneg, if_neg fun h => hj h.2, node_push_of_lt 0 hl1]
        rcases hP with ⟨-, -, h⟩ | ⟨-, h⟩
        · rw [hbelow l (by omega)]
          omega
        · exact absurd h hj
    · rw [if_neg (by omega), if_neg (by omega), if_pos le_rfl, node_push_of_lt 0 hl1]
      rcases hP with ⟨-, -, h⟩ | ⟨h, -⟩
      · rw [habove (m + 1) le_rfl]
        omega
      · omega
    · rw [if_neg (by omega), if_neg (by omega), if_neg (by omega)]
  · show _ ↔ (1 ≤ l ∧ l ≤ top) ∧ block c.K l w.first ≤ j ∧ j ≤ block c.K l (w.last + 1)
    have := hle l
    constructor
    · rintro (⟨h, h3, h4⟩ | ⟨h, rfl⟩)
      · exact ⟨h, h3, le_trans h4 (block_mono c.K l (le_succ _))⟩
      · rw [hbelow l h.2]
        omega
    · rintro ⟨h, h3, h4⟩
      rcases lt_or_ge m l with hml | hml
      · rw [habove l hml] at h4
        exact .inl ⟨h, h3, h4⟩
      · by_cases hj : j = block c.K l (w.last + 1)
        · exact .inr ⟨⟨h.1, hml⟩, hj⟩
        · rw [hbelow l hml] at h4 hj
          exact .inl ⟨h, h3, by omega⟩

theorem lifted_attach : Lifted c w top (m + 1)
      ((t.write { (w.push 0).node c m m (block c.K m (w.last + 1)) with
        parentId := c.idAt (m + 1) (block c.K (m + 1) w.last) }).write
        ((w.attached c top m).addValue c (w.brought c 0 m % c.nodeValueModulo))) := by
  have hset : { (w.push 0).node c m m (block c.K m (w.last + 1)) with
      parentId := c.idAt (m + 1) (block c.K (m + 1) w.last) } =
      (w.push 0).node c top m (block c.K m (w.last + 1)) := by
    rw [← block_succ_index_of_not hcarry]
    exact node_setParent _ _ _ (by omega)
  rw [attached_addValue top hcarry L.carries]
  refine ⟨by omega, hlt, hcarry, L.covers, ?_, L.root, ?_, L.leftmost, L.erase⟩
  · have hnodes := L.nodes_attach hlt hcarry
    rw [← hset] at hnodes
    exact hnodes
  · intro l
    show t.rightmostRvtNode l = _
    rw [L.rightmost]
    by_cases h : 1 ≤ l ∧ l ≤ m
    · rw [if_pos h, if_pos (by omega)]
    · rw [if_neg h]
      by_cases h' : 1 ≤ l ∧ l ≤ top
      · rw [if_pos h', if_pos h', block_succ_index_of_not fun hc => hcarry (hc.of_le (by omega))]
      · rw [if_neg h', if_neg h']

/-- **An open node above the spine** takes it as a child. -/
theorem connectToParent_open :
    ∃ t', t.connectToParent c ((w.push 0).node c m m (block c.K m (w.last + 1)))
        (w.brought c 0 m % c.nodeValueModulo) =
        .ok (t', c.idAt (m + 1) (block c.K (m + 1) (w.last + 1)),
          w.brought c 0 m % c.nodeValueModulo) ∧ Lifted c w top (m + 1) t' ∧ SameBounds t t' := by
  have hcounter := counter_last_of_not top hcarry L.carries
  have hopen := L.openForInsertion_next hlt hcounter.le
  rw [if_pos hcounter] at hopen
  unfold connectToParent
  rw [node_id, L.inRange.level_idAt, L.inRange.rvbIndex_idAt]
  dsimp only
  rw [if_pos (parentId_top _ _ _), hopen, ok_bind]
  dsimp only
  rw [push_eq_attached top L.inRange hcarry L.carries, ok_bind,
    ensure_decide (length_attached_le top hcarry L.carries), block_succ_index_of_not hcarry]
  exact ⟨_, rfl, L.lifted_attach hlt hcarry, rfl, rfl⟩

end

end

end

end Loose

namespace Lifted

variable {c : RvtConfig} {w : RvtWindow} {top k : ℕ} {t : RangeValidationTree}

open RangeValidationTree RvtWindow

theorem rep (U : Lifted c w top top t) : Rep c (w.push 0) top t where
  one_le := U.one_le
  covers := by
    show block c.K top w.first = block c.K top (w.last + 1)
    rw [block_succ_index_of_not U.not_carries, U.covers]
  nodes := U.nodes.congr (fun _ _ => Iff.rfl) fun l j hP => if_pos hP.1.2
  root := U.root
  rightmost := U.rightmost
  leftmost := U.leftmost
  erase := U.erase

/-- The values of the new nodes go up one level. -/
theorem connectToParent_eq (U : Lifted c w top k t) (hlt : k < top) :
    ∃ t', t.connectToParent c ((w.push 0).node c top k (block c.K k (w.last + 1)))
        (w.brought c 0 k % c.nodeValueModulo) =
        .ok (t', c.idAt (k + 1) (block c.K (k + 1) (w.last + 1)),
          w.brought c 0 (k + 1) % c.nodeValueModulo) ∧
      Lifted c w top (k + 1) t' ∧ SameBounds t t' := by
  have hcarry : ¬ Carries c.K (k + 1) w.last := fun h => U.not_carries h.of_succ
  have hsame := block_succ_index_of_not hcarry
  have hmem : (w.push 0).Present c top k (block c.K k (w.last + 1)) :=
    present_last (w := w.push 0) ⟨U.one_le, U.le⟩
  have hmem' : (w.push 0).Present c top (k + 1) (block c.K (k + 1) (w.last + 1)) :=
    present_last (w := w.push 0) ⟨by omega, hlt⟩
  have hparent : ((w.push 0).node c top k (block c.K k (w.last + 1))).parentId =
      c.idAt (k + 1) (block c.K (k + 1) (w.last + 1)) := by
    show (if k = top then 0 else _) = _
    rw [if_neg (by omega), block_div]
  have hpos := (U.nodes.inRange _ _ hmem').idAt_pos
  have hroot : t.root ≠ some (c.idAt k (block c.K k (w.last + 1))) := by
    rw [U.root, Ne, Option.some.injEq]
    intro h
    have hmemTop : (w.push 0).Present c top top (block c.K top w.first) :=
      present_first (w := w.push 0) ⟨by omega, le_rfl⟩
    have := (idAt_inj (U.nodes.inRange _ _ hmemTop) (U.nodes.inRange _ _ hmem) h).1
    omega
  have hreq := requireParent_eq U.nodes hmem' hroot hparent
  have hlift : (w.node c top (k + 1) (block c.K (k + 1) (w.last + 1))).addValue c
      (w.brought c 0 k % c.nodeValueModulo) =
      (w.push 0).node c top (k + 1) (block c.K (k + 1) (w.last + 1)) := by
    rw [hsame]
    exact lift_eq U.not_carries
  rw [if_neg (by omega)] at hreq
  unfold connectToParent
  dsimp only
  rw [if_neg (by omega), hreq, ok_bind, hlift, ← brought_succ_of_not 0 hcarry]
  refine ⟨_, rfl, ⟨by omega, hlt, hcarry, U.covers, ?_, U.root, U.rightmost, U.leftmost,
    U.erase⟩, rfl, rfl⟩
  refine U.nodes.set_congr _ hmem' rfl (if_pos le_rfl) fun l j hP hne => ?_
  rcases lt_trichotomy l (k + 1) with hl | rfl | hl
  · rw [if_pos (by omega), if_pos (by omega)]
  · have hle : j ≤ block c.K (k + 1) (w.last + 1) := hP.2.2
    rw [if_neg (by omega), if_pos le_rfl, node_push_of_lt 0 (by omega) (by omega)]
  · rw [if_neg (by omega), if_neg (by omega)]

theorem connectLoop_eq (U : Lifted c w top k t) {fuel : ℕ} (hfuel : top - k < fuel) :
    ∃ t', connectLoop c fuel t (c.idAt k (block c.K k (w.last + 1)))
        (w.brought c 0 k % c.nodeValueModulo) = .ok (t', c.idAt top (block c.K top (w.last + 1))) ∧
      Rep c (w.push 0) top t' ∧ SameBounds t t' := by
  induction fuel generalizing t k with
  | zero => omega
  | succ fuel ih =>
    have hmemTop : (w.push 0).Present c top top (block c.K top w.first) :=
      present_first (w := w.push 0) ⟨by have := U.one_le; have := U.le; omega, le_rfl⟩
    have hmem : (w.push 0).Present c top k (block c.K k (w.last + 1)) :=
      present_last (w := w.push 0) ⟨U.one_le, U.le⟩
    unfold connectLoop
    rw [derefRoot_eq U.nodes hmemTop U.root, ok_bind, U.nodes.id_eq _ _ hmemTop,
      (U.nodes.inRange _ _ hmemTop).level_idAt, (U.nodes.inRange _ _ hmem).level_idAt]
    by_cases hk : k = top
    · subst hk
      rw [if_pos rfl]
      exact ⟨t, rfl, U.rep, SameBounds.refl t⟩
    · have hlt : k < top := by
        have := U.le
        omega
      obtain ⟨t₁, hconnect, U₁, hbounds₁⟩ := U.connectToParent_eq hlt
      obtain ⟨t₂, hloop, hrep, hbounds₂⟩ := ih U₁ (by omega)
      rw [if_neg hk, deref_eq U.nodes hmem, if_pos le_rfl, ok_bind, hconnect, ok_bind]
      exact ⟨t₂, hloop, hrep, hbounds₁.trans hbounds₂⟩

end Lifted

namespace Loose

variable {c : RvtConfig} {w : RvtWindow} {top m : ℕ} {t : RangeValidationTree}

open RangeValidationTree RvtWindow

/-- **The first loop**: the spine reaches an open node and is part of the tree, or it reaches the
level of the root. -/
theorem connectLoop_eq (L : Loose c w top m t) {fuel : ℕ} (hfuel : top - m < fuel)
    (hfit : ∀ l ≤ top, Carries c.K l w.last → c.InRange l (block c.K l (w.last + 1))) :
    ∃ t', connectLoop c fuel t (c.idAt m (block c.K m (w.last + 1)))
        (w.brought c 0 m % c.nodeValueModulo) =
        .ok (t', c.idAt top (block c.K top (w.last + 1))) ∧ SameBounds t t' ∧
      ((¬ Carries c.K top w.last ∧ Rep c (w.push 0) top t') ∨ Loose c w top top t') := by
  induction fuel generalizing t m with
  | zero => omega
  | succ fuel ih =>
    have hmemTop : w.Present c top top (block c.K top w.first) :=
      present_first ⟨by have := L.one_le; have := L.le; omega, le_rfl⟩
    unfold connectLoop
    rw [derefRoot_eq L.nodes (.inl hmemTop) L.root, ok_bind, L.nodes.id_eq _ _ (.inl hmemTop),
      (L.nodes.inRange _ _ (.inl hmemTop)).level_idAt, L.inRange.level_idAt]
    by_cases hm : m = top
    · subst hm
      rw [if_pos rfl]
      exact ⟨t, rfl, SameBounds.refl t, .inr L⟩
    · have hlt : m < top := by
        have := L.le
        omega
      rw [if_neg hm, L.deref_end, ok_bind]
      by_cases hcarry : Carries c.K (m + 1) w.last
      · obtain ⟨t₁, hconnect, L₁, hbounds₁⟩ :=
          L.connectToParent_closed hlt hcarry (hfit (m + 1) hlt hcarry)
        obtain ⟨t₂, hloop, hbounds₂, hres⟩ := ih L₁ (by omega)
        rw [hconnect, ok_bind]
        exact ⟨t₂, hloop, hbounds₁.trans hbounds₂, hres⟩
      · obtain ⟨t₁, hconnect, U₁, hbounds₁⟩ := L.connectToParent_open hlt hcarry
        obtain ⟨t₂, hloop, hrep, hbounds₂⟩ := U₁.connectLoop_eq (show top - (m + 1) < fuel by omega)
        rw [hconnect, ok_bind, ← brought_succ_of_not 0 hcarry]
        exact ⟨t₂, hloop, hbounds₁.trans hbounds₂,
          .inl ⟨fun h => hcarry (h.of_le (by omega)), hrep⟩⟩

end Loose

end ConcordBft
