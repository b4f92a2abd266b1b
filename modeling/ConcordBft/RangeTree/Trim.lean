import ConcordBft.RangeTree.Add

/-!
# Removing a node on the left

An index that leaves closes the blocks of the levels that `Carries`; their nodes are taken out of
the arrays and listed for erasure, and their parents lose them as children. The first loop of
`removeAndUpdateInternalNodes` does this from the bottom. `Trim` is the state on the way: below
level `m` the nodes over the index are those of the shorter window, up to level `p` they have lost
the child, and the nodes below level `k` are out of the arrays and their initial values out of the
values above.
-/

namespace ConcordBft

open Verif Verif.Exec Verif.Kary Nat Function NodeVal RvtConfig

namespace RvtWindow

variable {c : RvtConfig} {w : RvtWindow} {top l j : ℕ}

/-- The window without its first index. -/
def pop (w : RvtWindow) (h : w.first < w.last) : RvtWindow := ⟨w.first + 1, w.last, w.leaf, h⟩

/-- What the first index takes from the blocks over it. -/
def taken (c : RvtConfig) (w : RvtWindow) (l : ℕ) : ℤ := removedLeft (w.own c) c.K w.first l

theorem taken_zero : w.taken c 0 = w.leaf w.first := rfl

theorem taken_succ_of_carries (h : Carries c.K (l + 1) w.first) :
    w.taken c (l + 1) = w.taken c l + c.initialValueAt (l + 1) (block c.K (l + 1) w.first) := by
  unfold taken
  rw [removedLeft, if_pos h]
  rfl

theorem taken_succ_of_not (h : ¬ Carries c.K (l + 1) w.first) :
    w.taken c (l + 1) = w.taken c l := by
  unfold taken
  rw [removedLeft, if_neg h, add_zero]

theorem value_pop (h : w.first < w.last) (l j : ℕ) : w.value c l j =
      (w.pop h).value c l j + if j = block c.K l w.first then w.taken c l else 0 :=
  total_succ_left _ RvtConfig.K_pos h l j

theorem block_first_lt (h : w.first < w.last) (hcarry : Carries c.K l w.first) :
    block c.K l w.first < block c.K l w.last := by
  have := block_mono c.K l (show w.first + 1 ≤ w.last from h)
  have := hcarry.block_succ_index
  omega

theorem firstChild_first (w : RvtWindow) (l : ℕ) :
    w.firstChild c l (block c.K (l + 1) w.first) = block c.K l w.first :=
  max_eq_left (block_sub_lt RvtConfig.K_pos l w.first).1

section

variable (h : w.first < w.last)

include h

theorem firstChild_pop (l : ℕ) :
    (w.pop h).firstChild c l (block c.K (l + 1) w.first) = block c.K l (w.first + 1) := by
  have h1 := (block_sub_lt (RvtConfig.K_pos (c := c)) l w.first).1
  have h2 := block_mono c.K l (le_add_right w.first 1)
  exact max_eq_left (le_trans h1 h2)

theorem childIds_pop (hcarry : Carries c.K l w.first) : w.childIds c l (block c.K (l + 1) w.first) =
      c.idAt l (block c.K l w.first) :: (w.pop h).childIds c l (block c.K (l + 1) w.first) := by
  have hlt : block c.K l w.first < w.endChild c l (block c.K (l + 1) w.first) := by
    have := (block_sub_lt (RvtConfig.K_pos (c := c)) l w.first).2
    have := block_le_block (c := c) (w := w) l
    unfold endChild
    omega
  unfold childIds
  rw [firstChild_first, firstChild_pop, hcarry.block_succ_index, List.Ico.eq_cons hlt,
    List.map_cons]
  rfl

theorem childIds_pop_eq_nil_iff (l : ℕ) :
    (w.pop h).childIds c l (block c.K (l + 1) w.first) = [] ↔ Carries c.K (l + 1) w.first := by
  have hend : (w.pop h).endChild c l (block c.K (l + 1) w.first) =
      min (block c.K l w.last + 1) ((block c.K (l + 1) w.first + 1) * c.K) := rfl
  unfold childIds
  rw [List.map_eq_nil_iff, List.Ico.eq_empty_iff, firstChild_pop, hend]
  constructor
  · intro hle
    by_contra hnot
    have h1 := (block_sub_lt (RvtConfig.K_pos (c := c)) l (w.first + 1)).2
    have h2 := block_mono c.K l (show w.first + 1 ≤ w.last from h)
    rw [block_succ_index_of_not hnot] at h1
    omega
  · intro hcarry
    rw [hcarry.block_eq_mul, hcarry.block_succ_index]
    exact min_le_right _ _

theorem node_pop_of_gt (hl : 1 ≤ l) (hj : block c.K l w.first < j) :
    (w.pop h).node c top l j = w.node c top l j := by
  obtain ⟨l, rfl⟩ := Nat.exists_eq_add_of_le' hl
  have hfirst : (w.pop h).firstChild c l j = w.firstChild c l j := by
    have h1 := (block_sub_lt (RvtConfig.K_pos (c := c)) l w.first).2
    have h2 := block_succ_index_le c.K l w.first
    have h3 : (block c.K (l + 1) w.first + 1) * c.K ≤ j * c.K := mul_le_mul_right _ hj
    unfold firstChild
    rw [show (w.pop h).first = w.first + 1 from rfl, max_eq_right (by omega),
      max_eq_right (by omega)]
  have hvalue : w.value c (l + 1) j = (w.pop h).value c (l + 1) j := by
    rw [value_pop h, if_neg (by omega), add_zero]
  unfold node childIds
  rw [Nat.add_sub_cancel, hfirst, hvalue]
  rfl

end

/-- The first node of a level on the way, with value `x`. -/
def trimmed (c : RvtConfig) (w : RvtWindow) (h : w.first < w.last) (top p l : ℕ) (x : ℤ) :
    RVTNode :=
  { w.node c top l (block c.K l w.first) with
    currentValue := x
    childIds := if l ≤ p then (w.pop h).childIds c (l - 1) (block c.K l w.first)
      else w.childIds c (l - 1) (block c.K l w.first) }

variable {h : w.first < w.last}

theorem trimmed_popChildId (hcarry : Carries c.K l w.first) (x : ℤ) :
    (w.trimmed c h top l (l + 1) x).popChildId (c.idAt l (block c.K l w.first)) =
      .ok (w.trimmed c h top (l + 1) (l + 1) x) := by
  have hchild : (w.trimmed c h top l (l + 1) x).childIds = c.idAt l (block c.K l w.first) ::
      (w.pop h).childIds c l (block c.K (l + 1) w.first) := by
    show (if l + 1 ≤ l then _ else _) = _
    rw [if_neg (by omega), Nat.add_sub_cancel, childIds_pop h hcarry]
  unfold RVTNode.popChildId
  rw [hchild]
  dsimp only
  rw [ensure_decide rfl]
  unfold trimmed
  rw [if_pos le_rfl, Nat.add_sub_cancel]
  rfl

theorem trimmed_of_ne {p : ℕ} (hl : l ≠ p + 1) (x : ℤ) :
    w.trimmed c h top p l x = w.trimmed c h top (p + 1) l x := by
  unfold trimmed
  rcases lt_or_ge p l with hlt | hge
  · rw [if_neg (by omega), if_neg (by omega)]
  · rw [if_pos hge, if_pos (by omega)]

/-- The value of the index goes out last, and the node is that of the shorter window. -/
theorem trimmed_subtractValue {p k : ℕ} (hl : 1 ≤ l) (hp : l ≤ p)
    (hk : l ≤ k ∧ k ≤ l + 1) (hcarry : ¬ Carries c.K l w.first) {x : ℤ}
    (hx : x ≡ w.value c l (block c.K l w.first) - (w.taken c (k - 1) - w.leaf w.first)
      [ZMOD c.nodeValueModulo]) :
    (w.trimmed c h top p l x).subtractValue c (w.leaf w.first) =
      (w.pop h).node c top l (block c.K l w.first) := by
  obtain ⟨l, rfl⟩ := Nat.exists_eq_add_of_le' hl
  have htaken : w.taken c (k - 1) = w.taken c (l + 1) := by
    rcases Nat.eq_or_lt_of_le hk.1 with rfl | hlt
    · rw [Nat.add_sub_cancel, taken_succ_of_not hcarry]
    · rw [show k - 1 = l + 1 by omega]
  have hvalue : (x - w.leaf w.first) % c.nodeValueModulo =
      (w.pop h).value c (l + 1) (block c.K (l + 1) w.first) % c.nodeValueModulo := by
    have hsub := hx.sub_right (w.leaf w.first)
    rw [value_pop h, if_pos rfl, htaken] at hsub
    rw [hsub]
    congr 1
    ring
  unfold trimmed RVTNode.subtractValue
  rw [NodeVal.sub_eq, if_pos hp]
  dsimp only
  rw [hvalue]
  rfl

end RvtWindow

variable {l : ℕ} {t : RangeValidationTree}

/-- The leftmost node of a level makes way for the next one. -/
theorem RangeValidationTree.updateOpenRvtNodeArrays_remove {c : RvtConfig} {j : ℕ}
    (hr : c.InRange l j) (hleft : t.leftmostRvtNode l = some (c.idAt l j))
    (hright : (t.rightmostRvtNode l).isSome = true) :
    t.updateOpenRvtNodeArrays c .checkRemoveNode (c.idAt l j) = .ok { t with
        leftmostRvtNode := update t.leftmostRvtNode l
          (if (t.idToNode.lookup (c.idAt l (j + 1))).isSome then some (c.idAt l (j + 1)) else none)
        rightmostRvtNode := update t.rightmostRvtNode l
          (if t.rightmostRvtNode l = some (c.idAt l j) then none else t.rightmostRvtNode l) } := by
  have hl := hr.level_lt
  have hid : NodeInfo.id l (((j + 1) * c.K ^ l + 1) % 2 ^ 64) = c.idAt l (j + 1) := by
    unfold idAt NodeInfo.id
    rw [mod_mod_of_dvd _ (by decide)]
  unfold updateOpenRvtNodeArrays
  rw [hr.level_idAt]
  dsimp only
  rw [checkLevel_of_lt (by omega), ok_bind, hleft, hright, Option.isSome_some, Bool.and_self,
    Bool.or_true, ensure_true, ok_bind, decide_eq_false (not_not.mpr rfl), Bool.and_false,
    Bool.not_false, ensure_true, ok_bind, if_pos rfl, hr.rvbIndex_idAt, hr.nextRvbIndex, ok_bind, hid]
  rfl

/-! ## The state on the way -/

structure Trim (c : RvtConfig) (w : RvtWindow) (h : w.first < w.last) (top m p k : ℕ)
    (t : RangeValidationTree) (f : ℕ → ℕ → RVTNode) : Prop where
  one_le : 1 ≤ m
  covers : block c.K top w.first = block c.K top w.last
  nodes : Holds c t.idToNode (w.Present c top) f
  right : ∀ l j, w.Present c top l j → block c.K l w.first < j → f l j = w.node c top l j
  done : ∀ l, 1 ≤ l → l < m → l ≤ top → ¬ Carries c.K l w.first →
    f l (block c.K l w.first) = (w.pop h).node c top l (block c.K l w.first)
  pending : ∀ l, m ≤ l → l ≤ top → ∃ x, f l (block c.K l w.first) = w.trimmed c h top p l x ∧
    (¬ Carries c.K l w.first →
      x ≡ w.value c l (block c.K l w.first) - (w.taken c (k - 1) - w.leaf w.first)
        [ZMOD c.nodeValueModulo])
  root : t.root = some (c.idAt top (block c.K top w.first))
  rightmost : ∀ l, t.rightmostRvtNode l =
    if 1 ≤ l ∧ l ≤ top then some (c.idAt l (block c.K l w.last)) else none
  leftmost : ∀ l, t.leftmostRvtNode l =
    if 1 ≤ l ∧ l ≤ top then some (c.idAt l (block c.K l (if l < k then w.first + 1 else w.first)))
    else none
  erase : ∀ id, id ∈ t.nodeIdsToErase ↔
    ∃ l, 1 ≤ l ∧ l < k ∧ Carries c.K l w.first ∧ id = c.idAt l (block c.K l w.first)

theorem Rep.trim {c : RvtConfig} {w : RvtWindow} {top : ℕ}
    (R : Rep c w top t) (h : w.first < w.last) : Trim c w h top 1 0 1 t (w.node c top) where
  one_le := le_rfl
  covers := R.covers
  nodes := R.nodes
  right _ _ _ _ := rfl
  done l h1 h2 _ _ := by omega
  pending l h1 _ := by
    refine ⟨w.value c l (block c.K l w.first) % c.nodeValueModulo, ?_, fun _ => ?_⟩
    · unfold RvtWindow.trimmed
      rw [if_neg (by omega)]
      rfl
    · rw [Nat.sub_self, RvtWindow.taken_zero, sub_self, sub_zero]
      exact Int.mod_modEq _ _
  root := R.root
  rightmost := R.rightmost
  leftmost l := by
    rw [R.leftmost]
    by_cases hl : 1 ≤ l ∧ l ≤ top
    · rw [if_pos hl, if_pos hl, if_neg (by omega)]
    · rw [if_neg hl, if_neg hl]
  erase id := by
    rw [R.erase]
    constructor
    · intro hid
      exact absurd hid List.not_mem_nil
    · rintro ⟨l, h1, h2, -⟩
      omega

namespace Trim

variable {c : RvtConfig} {w : RvtWindow} {h : w.first < w.last} {top m p k : ℕ}
  {t : RangeValidationTree} {f : ℕ → ℕ → RVTNode}

open RangeValidationTree RvtWindow

section

variable (T : Trim c w h top m p k t f)

include T

theorem present (hm : m ≤ l) (hl : l ≤ top) :
    w.Present c top l (block c.K l w.first) := present_first ⟨le_trans T.one_le hm, hl⟩

theorem inRange (hm : m ≤ l) (hl : l ≤ top) :
    c.InRange l (block c.K l w.first) := T.nodes.inRange _ _ (T.present hm hl)

/-- The root has more than one child block, so the index does not close it. -/
theorem not_carries_top : ¬ Carries c.K top w.first := by
  intro hcarry
  have := block_first_lt h hcarry
  have := T.covers
  omega

theorem lt_top_of_carries (hl : l ≤ top) (hcarry : Carries c.K l w.first) : l < top := by
  refine lt_of_le_of_ne hl ?_
  rintro rfl
  exact T.not_carries_top hcarry

theorem spine (t' : RangeValidationTree) (hm : m ≤ l)
    (hl : l ≤ top) (hnodes : t'.idToNode = t.idToNode) (hroot : t'.root = t.root) :
    t'.Spine c (w.Present c top) f (fun l => block c.K l w.first) l top where
  le := hl
  holds := by
    rw [hnodes]
    exact T.nodes
  mem l' h1 h2 := T.present (le_trans hm h1) h2
  parent l' h1 h2 := by
    obtain ⟨x, hx, -⟩ := T.pending l' (le_trans hm h1) h2.le
    rw [hx, block_succ]
    exact if_neg (by omega)
  parent_root := by
    obtain ⟨x, hx, -⟩ := T.pending top (le_trans hm hl) le_rfl
    rw [hx]
    exact if_pos rfl
  root := hroot.trans T.root

theorem pop_eq (hm : m ≤ p + 1) (hp : p + 1 ≤ top) (hcarry : Carries c.K p w.first) :
    ∃ node f', (f (p + 1) (block c.K (p + 1) w.first)).popChildId
        (c.idAt p (block c.K p w.first)) = .ok node ∧
      node.id = c.idAt (p + 1) (block c.K (p + 1) w.first) ∧
      Trim c w h top m (p + 1) k (t.write node) f' ∧ ∀ l, l ≠ p + 1 → f' l = f l := by
  obtain ⟨x, hx, hvalue⟩ := T.pending (p + 1) hm hp
  refine ⟨w.trimmed c h top (p + 1) (p + 1) x,
    fun l j => if l = p + 1 ∧ j = block c.K (p + 1) w.first then
      w.trimmed c h top (p + 1) (p + 1) x else f l j, ?_, rfl,
    ⟨T.one_le, T.covers, T.nodes.set (T.present hm hp) _ rfl, ?_, ?_, ?_, T.root, T.rightmost,
      T.leftmost, T.erase⟩, ?_⟩
  · rw [hx]
    exact trimmed_popChildId hcarry x
  · intro l j hP hlt
    rw [if_neg, T.right l j hP hlt]
    rintro ⟨rfl, rfl⟩
    omega
  · intro l h1 h2 h3 h4
    rw [if_neg (by omega), T.done l h1 h2 h3 h4]
  · intro l h1 h2
    by_cases hl : l = p + 1
    · subst hl
      exact ⟨x, if_pos ⟨rfl, rfl⟩, hvalue⟩
    · obtain ⟨y, hy, hy'⟩ := T.pending l h1 h2
      refine ⟨y, ?_, hy'⟩
      rw [if_neg fun h' => hl h'.1, hy, trimmed_of_ne hl]
  · intro l hl
    funext j
    exact if_neg fun h' => hl h'.1

theorem pop_of_not (hcarry : ¬ Carries c.K p w.first) : Trim c w h top m (p + 1) k t f := by
  refine ⟨T.one_le, T.covers, T.nodes, T.right, T.done, ?_, T.root, T.rightmost, T.leftmost,
    T.erase⟩
  intro l h1 h2
  obtain ⟨x, hx, hvalue⟩ := T.pending l h1 h2
  refine ⟨x, ?_, hvalue⟩
  by_cases hl : l = p + 1
  · subst hl
    have hids : w.childIds c p (block c.K (p + 1) w.first) =
        (w.pop h).childIds c p (block c.K (p + 1) w.first) := by
      unfold childIds
      rw [firstChild_first, firstChild_pop, block_succ_index_of_not hcarry]
      rfl
    rw [hx, trimmed, trimmed, if_neg (by omega), if_pos le_rfl, Nat.add_sub_cancel, hids]
  · rw [hx, trimmed_of_ne hl]

end

/-- **A node leaves** the arrays, and its initial value the values above it. -/
theorem takeOut_eq (T : Trim c w h top k p k t f) (hk : k ≤ top) (hcarry : Carries c.K k w.first) :
    (∀ ids, { t with nodeIdsToErase := ids }.updateOpenRvtNodeArrays c .checkRemoveNode
        (c.idAt k (block c.K k w.first)) = .ok { t with
        nodeIdsToErase := ids
        leftmostRvtNode := update t.leftmostRvtNode k
          (some (c.idAt k (block c.K k w.first + 1))) }) ∧ ∃ t' f', { t with
        nodeIdsToErase := t.nodeIdsToErase.insert (c.idAt k (block c.K k w.first))
        leftmostRvtNode := update t.leftmostRvtNode k
          (some (c.idAt k (block c.K k w.first + 1))) }.addValueToInternalNodes c
          (some (c.idAt (k + 1) (block c.K (k + 1) w.first)))
          (setNegative (c.initialValueAt k (block c.K k w.first))) = .ok t' ∧
      Trim c w h top k p (k + 1) t' f' ∧ SameBounds t t' ∧ ∀ j, f' k j = f k j := by
  have hlt := T.lt_top_of_carries hk hcarry
  have hblock := block_first_lt h hcarry
  have hr := T.inRange le_rfl hk
  have hleft : t.leftmostRvtNode k = some (c.idAt k (block c.K k w.first)) := by
    rw [T.leftmost, if_pos ⟨T.one_le, hk⟩, if_neg (by omega)]
  have hright : t.rightmostRvtNode k = some (c.idAt k (block c.K k w.last)) := by
    rw [T.rightmost, if_pos ⟨T.one_le, hk⟩]
  have hlast : w.Present c top k (block c.K k w.last) := present_last ⟨T.one_le, hk⟩
  have hne : c.idAt k (block c.K k w.last) ≠ c.idAt k (block c.K k w.first) := by
    intro heq
    have := (idAt_inj (T.nodes.inRange _ _ hlast) hr heq).2
    omega
  have hnext : w.Present c top k (block c.K k w.first + 1) :=
    ⟨⟨T.one_le, hk⟩, le_succ _, hblock⟩
  refine ⟨fun ids => ?_, ?_⟩
  · refine (updateOpenRvtNodeArrays_remove hr ?_ ?_).trans ?_
    · exact hleft
    · exact hright ▸ rfl
    · dsimp only
      rw [T.nodes.lookup _ _ hnext, Option.isSome_some, if_pos rfl, hright,
        if_neg fun heq => hne (Option.some.inj heq), ← hright, update_eq_self]
  obtain ⟨nodes, hrun, hnodes⟩ := (T.spine { t with
      nodeIdsToErase := t.nodeIdsToErase.insert (c.idAt k (block c.K k w.first))
      leftmostRvtNode := update t.leftmostRvtNode k
        (some (c.idAt k (block c.K k w.first + 1))) } (le_succ k) hlt rfl
      rfl).addValueToInternalNodes_eq
      (setNegative (c.initialValueAt k (block c.K k w.first)))
  refine ⟨_, _, hrun, ⟨T.one_le, T.covers, hnodes, ?_, ?_, ?_, T.root, T.rightmost, ?_, ?_⟩,
    ⟨rfl, rfl⟩, ?_⟩
  · intro l j hP hj
    rw [if_neg (by omega), T.right l j hP hj]
  · intro l h1 h2 h3 h4
    rw [if_neg (by omega), T.done l h1 h2 h3 h4]
  · intro l h1 h2
    obtain ⟨x, hx, hvalue⟩ := T.pending l h1 h2
    rcases Nat.eq_or_lt_of_le h1 with rfl | hl
    · refine ⟨x, ?_, fun hnot => absurd hcarry hnot⟩
      rw [if_neg (by omega), hx]
    · refine ⟨add c x (setNegative (c.initialValueAt k (block c.K k w.first))), ?_, fun hnot => ?_⟩
      · rw [if_pos ⟨rfl, hl, h2⟩, hx]
        rfl
      · have hsum := (hvalue hnot).add_right
          (setNegative (c.initialValueAt k (block c.K k w.first)))
        refine (add_modEq x _).trans (hsum.trans ?_)
        obtain ⟨k, rfl⟩ := Nat.exists_eq_add_of_le' T.one_le
        rw [setNegative_of_nonneg (initialValueAt_nonneg _ _), Nat.add_sub_cancel,
          Nat.add_sub_cancel, taken_succ_of_carries hcarry]
        exact congrArg (· % c.nodeValueModulo) (by ring)
  · intro l
    show update t.leftmostRvtNode k _ l = _
    rcases eq_or_ne l k with rfl | hl
    · rw [update_self, if_pos ⟨T.one_le, hk⟩, if_pos (lt_succ_self l), hcarry.block_succ_index]
    · rw [update_of_ne hl, T.leftmost]
      by_cases hlk : l < k
      · rw [if_pos hlk, if_pos (show l < k + 1 by omega)]
      · rw [if_neg hlk, if_neg (show ¬ l < k + 1 by omega)]
  · intro id
    rw [List.mem_insert_iff, T.erase]
    constructor
    · rintro (rfl | ⟨l, h1, h2, h3⟩)
      · exact ⟨k, T.one_le, lt_succ_self k, hcarry, rfl⟩
      · exact ⟨l, h1, by omega, h3⟩
    · rintro ⟨l, h1, h2, h3, h4⟩
      rcases lt_or_ge l k with hl | hl
      · exact .inr ⟨l, h1, hl, h3, h4⟩
      · obtain rfl : l = k := by omega
        exact .inl h4
  · intro j
    exact if_neg (by omega)

theorem takeOut_of_not (T : Trim c w h top m p k t f) (hk : 1 ≤ k)
    (hcarry : ¬ Carries c.K k w.first) : Trim c w h top m p (k + 1) t f := by
  obtain ⟨k, rfl⟩ := Nat.exists_eq_add_of_le' hk
  refine ⟨T.one_le, T.covers, T.nodes, T.right, T.done, ?_, T.root, T.rightmost, ?_, ?_⟩
  · intro l h1 h2
    obtain ⟨x, hx, hvalue⟩ := T.pending l h1 h2
    refine ⟨x, hx, ?_⟩
    rw [Nat.add_sub_cancel, taken_succ_of_not hcarry]
    exact hvalue
  · intro l
    rw [T.leftmost]
    rcases lt_trichotomy l (k + 1) with hl | rfl | hl
    · rw [if_pos hl, if_pos (show l < k + 1 + 1 by omega)]
    · rw [if_neg (lt_irrefl _), if_pos (lt_succ_self (k + 1)), block_succ_index_of_not hcarry]
    · rw [if_neg (show ¬ l < k + 1 by omega), if_neg (show ¬ l < k + 1 + 1 by omega)]
  · intro id
    rw [T.erase]
    constructor
    · rintro ⟨l, h1, h2, h3⟩
      exact ⟨l, h1, by omega, h3⟩
    · rintro ⟨l, h1, h2, h3, h4⟩
      rcases lt_or_ge l (k + 1) with hl | hl
      · exact ⟨l, h1, hl, h3, h4⟩
      · obtain rfl : l = k + 1 := by omega
        exact absurd h3 hcarry

/-- **The value of the index leaves** the node at level `m`. -/
theorem finish (T : Trim c w h top m p k t f) (hm : m ≤ top) (hp : m ≤ p) (hk : m ≤ k)
    (hk' : k ≤ m + 1) :
    ∃ f', Trim c w h top (m + 1) p k
      (t.write ((f m (block c.K m w.first)).subtractValue c (w.leaf w.first))) f' := by
  obtain ⟨x, hx, hvalue⟩ := T.pending m le_rfl hm
  have hid := T.nodes.id_eq _ _ (T.present le_rfl hm)
  refine ⟨_, le_succ_of_le T.one_le, T.covers, T.nodes.set (T.present le_rfl hm) _ hid, ?_, ?_,
    ?_, T.root, T.rightmost, T.leftmost, T.erase⟩
  · intro l j hP hlt
    rw [if_neg, T.right l j hP hlt]
    rintro ⟨rfl, rfl⟩
    omega
  · intro l h1 h2 h3 h4
    rcases lt_or_ge l m with hl | hl
    · rw [if_neg (by omega), T.done l h1 hl h3 h4]
    · obtain rfl : l = m := by omega
      rw [if_pos ⟨rfl, rfl⟩, hx]
      exact trimmed_subtractValue h1 hp ⟨hk, hk'⟩ h4 (hvalue h4)
  · intro l h1 h2
    obtain ⟨y, hy, hy'⟩ := T.pending l (by omega) h2
    refine ⟨y, ?_, hy'⟩
    rw [if_neg (by omega), hy]

/-! ## The first loop -/

theorem requireParent_eq (T : Trim c w h top m p k t f) (hm : m < top) :
    t.requireParent (f m (block c.K m w.first)) = .ok (f (m + 1) (block c.K (m + 1) w.first)) := by
  have S := T.spine t le_rfl hm.le rfl rfl
  have hroot : t.root ≠ some (f m (block c.K m w.first)).id := by
    rw [T.nodes.id_eq _ _ (T.present le_rfl hm.le), Ne, S.root_eq_iff le_rfl hm.le]
    omega
  exact RangeValidationTree.requireParent_eq T.nodes (T.present (le_succ m) hm) hroot
    (S.parent m le_rfl hm)

section

variable (T : Trim c w h top m m k t f)

include T

theorem isEmpty_childIds_iff (hm : m ≤ top) :
    (f m (block c.K m w.first)).childIds.isEmpty = true ↔ Carries c.K m w.first := by
  obtain ⟨x, hx, -⟩ := T.pending m le_rfl hm
  have hone := T.one_le
  obtain ⟨m, rfl⟩ := Nat.exists_eq_add_of_le' hone
  rw [List.isEmpty_iff, hx, ← childIds_pop_eq_nil_iff h m]
  show (if m + 1 ≤ m + 1 then _ else _) = [] ↔ _
  rw [if_pos le_rfl, Nat.add_sub_cancel]

theorem detachNode_eq (hm : m ≤ top)
    (hcarry : Carries c.K m w.first) (hk : k = m ∧ 2 ≤ m ∨ k = 2 ∧ m = 1) :
    ∃ t' f', t.detachNode c (c.idAt 1 (block c.K 1 w.first)) (f m (block c.K m w.first))
        (f (m + 1) (block c.K (m + 1) w.first)) = .ok t' ∧
      Trim c w h top m (m + 1) (m + 1) t' f' ∧ SameBounds t t' ∧
      f' m (block c.K m w.first) = f m (block c.K m w.first) := by
  have hlt := T.lt_top_of_carries hm hcarry
  have hid := T.nodes.id_eq _ _ (T.present le_rfl hm)
  obtain ⟨x, hx, -⟩ := T.pending m le_rfl hm
  have hinit : (f m (block c.K m w.first)).initialValue =
      c.initialValueAt m (block c.K m w.first) := by
    rw [hx]
    rfl
  obtain ⟨node, f₁, hpop, hnode, T₁, hkeep⟩ := T.pop_eq (le_succ m) hlt hcarry
  have hkeep₁ : f₁ m (block c.K m w.first) = f m (block c.K m w.first) := by
    rw [hkeep m (by omega)]
  unfold detachNode
  rw [hid, hpop, ok_bind]
  dsimp only
  rcases hk with ⟨rfl, htwo⟩ | ⟨rfl, rfl⟩
  · have hne : c.idAt k (block c.K k w.first) ≠ c.idAt 1 (block c.K 1 w.first) := by
      intro heq
      have hone : c.InRange 1 (block c.K 1 w.first) :=
        T.nodes.inRange _ _ (present_first ⟨le_rfl, by omega⟩)
      have := (idAt_inj (T.inRange le_rfl hm) hone heq).1
      omega
    obtain ⟨harrays, t₂, f₂, hrun, T₂, hbounds, hkeep₂⟩ := T₁.takeOut_eq hm hcarry
    rw [if_pos hne, harrays, ok_bind, hnode, hinit]
    exact ⟨t₂, f₂, hrun, T₂, hbounds, (hkeep₂ _).trans hkeep₁⟩
  · rw [if_neg (not_not.mpr rfl)]
    exact ⟨_, f₁, rfl, T₁, ⟨rfl, rfl⟩, hkeep₁⟩

theorem trimLoop_succ (hm : m < top) (hk : k = m ∧ 2 ≤ m ∨ k = 2 ∧ m = 1) (fuel : ℕ) :
    ∃ t' f', trimLoop c (c.idAt 1 (block c.K 1 w.first)) (w.leaf w.first) (fuel + 1) t
        (c.idAt m (block c.K m w.first)) =
        trimLoop c (c.idAt 1 (block c.K 1 w.first)) (w.leaf w.first) fuel t'
          (c.idAt (m + 1) (block c.K (m + 1) w.first)) ∧
      Trim c w h top (m + 1) (m + 1) (m + 1) t' f' ∧ SameBounds t t' := by
  have S := T.spine t le_rfl hm.le rfl rfl
  have hroot : ¬ t.root = some (c.idAt m (block c.K m w.first)) := by
    rw [S.root_eq_iff le_rfl hm.le]
    omega
  have hparent := T.nodes.id_eq _ _ (T.present (le_succ m) hm)
  rw [trimLoop, if_neg hroot, deref_eq T.nodes (T.present le_rfl hm.le), ok_bind,
    T.requireParent_eq hm, ok_bind, hparent]
  by_cases hcarry : Carries c.K m w.first
  · obtain ⟨t₁, f₁, hdetach, T₁, hbounds, hkeep⟩ := T.detachNode_eq hm.le hcarry hk
    obtain ⟨f₂, T₂⟩ := T₁.finish hm.le (le_succ m) (le_succ m) le_rfl
    rw [hkeep] at T₂
    rw [if_pos ((T.isEmpty_childIds_iff hm.le).2 hcarry), hdetach, ok_bind]
    exact ⟨_, f₂, rfl, T₂, hbounds⟩
  · have T₁ : Trim c w h top m (m + 1) (m + 1) t f := by
      rcases hk with ⟨rfl, -⟩ | ⟨rfl, rfl⟩
      · exact (T.pop_of_not hcarry).takeOut_of_not T.one_le hcarry
      · exact T.pop_of_not hcarry
    obtain ⟨f₂, T₂⟩ := T₁.finish hm.le (le_succ m) (le_succ m) le_rfl
    rw [if_neg fun hempty => hcarry ((T.isEmpty_childIds_iff hm.le).1 hempty), pure_eq_ok, ok_bind]
    exact ⟨_, f₂, rfl, T₂, ⟨rfl, rfl⟩⟩

/-- **The first loop** comes to the root. -/
theorem trimLoop_eq (hm : m ≤ top)
    (hk : k = m ∧ 2 ≤ m ∨ k = 2 ∧ m = 1) {fuel : ℕ} (hfuel : top - m < fuel) :
    ∃ t' f' k', trimLoop c (c.idAt 1 (block c.K 1 w.first)) (w.leaf w.first) fuel t
        (c.idAt m (block c.K m w.first)) = .ok t' ∧
      Trim c w h top top top k' t' f' ∧ (top ≤ k' ∧ k' ≤ top + 1) ∧ SameBounds t t' := by
  induction fuel generalizing t f m k with
  | zero => omega
  | succ fuel ih =>
    rcases Nat.eq_or_lt_of_le hm with rfl | hlt
    · rw [trimLoop, if_pos T.root]
      exact ⟨t, f, k, rfl, T, by omega, SameBounds.refl t⟩
    · obtain ⟨t₁, f₁, hstep, T₁, hbounds₁⟩ := T.trimLoop_succ hlt hk fuel
      have hone := T.one_le
      obtain ⟨t₂, f₂, k₂, hrun, T₂, hk₂, hbounds₂⟩ :=
        ih T₁ hlt (.inl ⟨rfl, by omega⟩) (by omega)
      rw [hstep]
      exact ⟨t₂, f₂, k₂, hrun, T₂, hk₂, hbounds₁.trans hbounds₂⟩

end

end Trim

end ConcordBft
