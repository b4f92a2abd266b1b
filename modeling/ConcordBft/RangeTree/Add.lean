import ConcordBft.RangeTree.Grow

/-!
# The whole addition

`addRVBNode` turns the tree of a window into the tree of the window with one more index
(`Rep.addRVBNode_eq`), and the empty tree into the tree of one index (`addRVBNode_empty`).
-/

namespace ConcordBft

open Verif Verif.Exec Verif.Kary Function NodeInfo

namespace RvtWindow

variable {c : RvtConfig} {w : RvtWindow} {top l : ℕ}

theorem push_eq_addLeaf (w : RvtWindow) (v : ℤ) : (w.push 0).addLeaf (w.last + 1) v = w.push v := by
  unfold addLeaf push
  congr 1
  funext j
  dsimp only
  by_cases h : j = w.last + 1
  · rw [if_pos h, if_pos h, if_pos h, zero_add]
  · rw [if_neg h, if_neg h, if_neg h, add_zero]

theorem rootLevel_le_push (w : RvtWindow) (v : ℤ) : w.rootLevel c ≤ (w.push v).rootLevel c := by
  refine rootLevel_le one_le_rootLevel ?_
  have h1 : block c.K _ w.first = block c.K _ (w.last + 1) := covers_rootLevel (w := w.push v)
  have h2 := block_le_block (c := c) (w := w) ((w.push v).rootLevel c)
  have h3 := block_mono c.K ((w.push v).rootLevel c) (Nat.le_add_right w.last 1)
  omega

theorem rootLevel_push_of_not (v : ℤ) (h : ¬ Carries c.K (w.rootLevel c) w.last) :
    (w.push v).rootLevel c = w.rootLevel c := by
  refine le_antisymm (rootLevel_le one_le_rootLevel ?_) (rootLevel_le_push w v)
  show block c.K _ w.first = block c.K _ (w.last + 1)
  rw [block_succ_index_of_not h, covers_rootLevel]

/-- The root goes up to the first level where the new index opens no block. -/
theorem rootLevel_push_of_carries (v : ℤ) {p : ℕ} (hp : w.rootLevel c < p)
    (hcarries : ∀ l < p, Carries c.K l w.last) (hnot : ¬ Carries c.K p w.last) :
    (w.push v).rootLevel c = p := by
  refine rootLevel_eq (by omega) ?_ ?_
  · show block c.K p w.first = block c.K p (w.last + 1)
    rw [block_succ_index_of_not hnot, block_eq_of_le covers_rootLevel hp.le]
  · intro l _ hl
    show block c.K l w.first < block c.K l (w.last + 1)
    have := block_le_block (c := c) (w := w) l
    rw [(hcarries l hl).block_succ_index]
    omega

theorem exists_not_carries (c : RvtConfig) (w : RvtWindow) : ∃ l, ¬ Carries c.K l w.last := by
  refine ⟨w.last + 2, fun h => ?_⟩
  have hle := Nat.le_of_dvd (Nat.succ_pos _) h
  have hlt := Nat.lt_pow_self (n := w.last + 2) (RvtConfig.two_le_K (c := c))
  omega

theorem addValue_zero {node : RVTNode}
    (h : node.currentValue % c.nodeValueModulo = node.currentValue) : node.addValue c 0 = node := by
  have hnonneg : 0 ≤ node.currentValue := by
    rw [← h]
    exact Int.emod_nonneg _ NodeVal.modulo_pos.ne'
  rw [RVTNode.addValue, NodeVal.add_of_nonneg hnonneg le_rfl, add_zero, h]

theorem fresh_eq_node (h : Carries c.K 1 w.last) :
    fresh c 0 (w.last + 1) = (w.push 0).node c 1 1 (block c.K 1 (w.last + 1)) := by
  rw [← fresh_addValue h, brought_zero, Int.zero_emod, addValue_zero]
  exact initialValueAt_emod 1 (block c.K 1 (w.last + 1))

theorem attached_eq_node (h : ¬ Carries c.K 1 w.last) (top : ℕ) :
    w.attached c top 0 = (w.push 0).node c top 1 (block c.K 1 w.last) := by
  rw [← attached_addValue top h (carries_zero _ _), brought_zero, Int.zero_emod, addValue_zero]
  exact Int.emod_emod _ _

theorem brought_eq_zero (h : ¬ Carries c.K 1 w.last) (l : ℕ) : w.brought c 0 l = 0 := by
  induction l with
  | zero => exact brought_zero 0
  | succ l ih => rw [brought_succ_of_not 0 fun h' => h (h'.of_le (Nat.le_add_left 1 l)), ih]

/-- Above level 1 an index that opens no block changes nothing but values. -/
theorem node_push_zero (h : ¬ Carries c.K 1 w.last) (hl : 2 ≤ l) (j : ℕ)
    (hj : j ≤ block c.K l w.last) : (w.push 0).node c top l j = w.node c top l j := by
  obtain ⟨l, rfl⟩ := Nat.exists_eq_add_of_le' hl
  have hnot : ∀ k, 1 ≤ k → ¬ Carries c.K k w.last := fun k hk h' => h (h'.of_le hk)
  rcases Nat.lt_or_ge j (block c.K (l + 2) w.last) with hlt | hge
  · apply node_push_of_lt 0 (by omega)
    rw [block_succ_index_of_not (hnot (l + 2) (by omega))]
    exact hlt
  · obtain rfl : j = block c.K (l + 1 + 1) w.last := le_antisymm hj hge
    rw [← lift_eq (hnot (l + 1) (by omega)), brought_eq_zero h, Int.zero_emod, addValue_zero]
    exact Int.emod_emod _ _

end RvtWindow

namespace Rep

variable {c : RvtConfig} {w : RvtWindow} {top : ℕ} {t : RangeValidationTree}

open RangeValidationTree RvtWindow

theorem write_attached (R : Rep c w top t) (h : ¬ Carries c.K 1 w.last) :
    Rep c (w.push 0) top (t.write (w.attached c top 0)) := by
  have hnot : ∀ l, 1 ≤ l → block c.K l (w.last + 1) = block c.K l w.last :=
    fun l hl => block_succ_index_of_not fun h' => h (h'.of_le hl)
  rw [attached_eq_node h]
  refine ⟨R.one_le, ?_, ?_, R.root, ?_, R.leftmost, R.erase⟩
  · show block c.K top w.first = block c.K top (w.last + 1)
    rw [hnot top R.one_le, R.covers]
  · refine Holds.of_iff (R.nodes.set_congr ((w.push 0).node c top 1 (block c.K 1 w.last))
      (present_last ⟨le_rfl, R.one_le⟩) rfl rfl fun l j ⟨hl, h1, h2⟩ hlj => ?_) fun l j => ?_
    swap
    · show (1 ≤ l ∧ l ≤ top) ∧ _ ∧ _ ↔ (1 ≤ l ∧ l ≤ top) ∧ _ ∧ j ≤ block c.K l (w.last + 1)
      constructor
      · rintro ⟨hl, h1, h2⟩
        rw [hnot l hl.1]
        exact ⟨hl, h1, h2⟩
      · rintro ⟨hl, h1, h2⟩
        rw [hnot l hl.1] at h2
        exact ⟨hl, h1, h2⟩
    · rcases Nat.lt_or_ge l 2 with hlt | hge
      · obtain rfl : l = 1 := by omega
        rw [node_push_of_lt 0 le_rfl]
        rw [hnot 1 le_rfl]
        omega
      · exact (node_push_zero h hge j h2).symm
  · intro l
    show t.rightmostRvtNode l = _
    rw [R.rightmost]
    by_cases hl : 1 ≤ l ∧ l ≤ top
    · rw [if_pos hl, if_pos hl, ← hnot l hl.1]
      rfl
    · rw [if_neg hl, if_neg hl]

/-- **An index in a new node** of level 1: the node is a spine beside the tree. -/
theorem loose (R : Rep c w top t) (h : Carries c.K 1 w.last)
    (hr : c.InRange 1 (block c.K 1 (w.last + 1))) :
    ∃ t₁ t', t.updateOpenRvtNodeArrays c .addNodeToRight (fresh c 0 (w.last + 1)).id = .ok t₁ ∧
      t₁.insertNode (fresh c 0 (w.last + 1)) = .ok t' ∧ Loose c w top 1 t' ∧ SameBounds t t' := by
  have hnew := h.block_succ_index
  have hlookup : t.idToNode.lookup (fresh c 0 (w.last + 1)).id = none := by
    refine R.nodes.lookup_eq_none hr ?_
    rintro ⟨-, -, h2 : block c.K 1 (w.last + 1) ≤ block c.K 1 w.last⟩
    omega
  have hboth : (t.leftmostRvtNode 1).isSome = true ∧ (t.rightmostRvtNode 1).isSome = true := by
    rw [R.leftmost, R.rightmost, if_pos ⟨le_rfl, R.one_le⟩, if_pos ⟨le_rfl, R.one_le⟩]
    exact ⟨rfl, rfl⟩
  refine ⟨_, _, updateOpenRvtNodeArrays_add hr (.inr hboth), insertNode_of_none hlookup, ?_⟩
  rw [fresh_eq_node h]
  refine ⟨⟨le_rfl, R.one_le, h, R.covers, ?_, R.root, ?_, ?_, R.erase⟩, rfl, rfl⟩
  · refine R.nodes.insert_congr _ hr rfl (fun l j => ?_) (if_pos ⟨le_rfl, rfl⟩)
      fun l j hP hlj => ?_
    · constructor
      · rintro (h1 | ⟨rfl, rfl⟩)
        · exact .inl h1
        · exact .inr ⟨⟨le_rfl, le_rfl⟩, rfl⟩
      · rintro (h1 | ⟨⟨h1, h2⟩, rfl⟩)
        · exact .inl h1
        · obtain rfl : l = 1 := by omega
          exact .inr ⟨rfl, rfl⟩
    · rw [if_neg]
      rintro ⟨h1, h2⟩
      obtain rfl : l = 1 := le_antisymm h1 hP.1.1
      exact hlj ⟨rfl, h2⟩
  · intro l
    show update t.rightmostRvtNode 1 _ l = _
    rcases eq_or_ne l 1 with rfl | hne
    · rw [update_self, if_pos ⟨le_rfl, le_rfl⟩]
    · rw [update_of_ne hne, R.rightmost, if_neg (show ¬ (1 ≤ l ∧ l ≤ 1) by omega)]
  · intro l
    show update t.leftmostRvtNode 1 _ l = _
    rcases eq_or_ne l 1 with rfl | hne
    · rw [update_self, R.leftmost, if_pos ⟨le_rfl, R.one_le⟩]
      rfl
    · rw [update_of_ne hne, R.leftmost]

end Rep

namespace Loose

variable {c : RvtConfig} {w : RvtWindow} {t : RangeValidationTree}

open RangeValidationTree RvtWindow

theorem addInternalNode_eq (L : Loose c w (w.rootLevel c) 1 t) (hfit : (w.push 0).Fits c) :
    ∃ t', t.addInternalNode c (fresh c 0 (w.last + 1)) = .ok t' ∧
      Rep c (w.push 0) ((w.push 0).rootLevel c) t' ∧ SameBounds t t' := by
  have hcarry : Carries c.K 1 w.last := L.carries
  have hindex : w.last + 2 < 2 ^ 56 := hfit.index_lt
  have hpow := hfit.pow_lt
  have hvalue : (fresh c 0 (w.last + 1)).initialValue = w.brought c 0 1 % c.nodeValueModulo := by
    rw [brought_succ_of_carries 0 hcarry, brought_zero, zero_add, initialValueAt_emod]
    rfl
  have hlevel := (inRange_block hindex hpow (rootLevel_le_push w 0)).level_lt
  have hfuel : w.rootLevel c - 1 < kMaxLevels + 1 := by
    unfold kMaxLevels
    omega
  have hrange : ∀ l ≤ w.rootLevel c, Carries c.K l w.last →
      c.InRange l (block c.K l (w.last + 1)) := fun l hl _ =>
    inRange_block hindex hpow (le_trans hl (rootLevel_le_push w 0))
  obtain ⟨t₁, hconnect, hbounds, hres⟩ := L.connectLoop_eq hfuel hrange
  unfold addInternalNode
  rw [ensure_decide (show (fresh c 0 (w.last + 1)).parentId = 0 from rfl), hvalue,
    show (fresh c 0 (w.last + 1)).id = c.idAt 1 (block c.K 1 (w.last + 1)) from rfl, hconnect, ok_bind]
  rcases hres with ⟨hnot, hrep⟩ | L₁
  · have hroot : t₁.root = some (c.idAt (w.rootLevel c) (block c.K (w.rootLevel c) (w.last + 1))) := by
      rw [hrep.root, block_succ_index_of_not hnot, ← covers_rootLevel]
      rfl
    dsimp only
    rw [if_pos hroot, rootLevel_push_of_not 0 hnot]
    exact ⟨t₁, rfl, hrep, hbounds⟩
  · have hp : ∃ p, w.rootLevel c < p ∧ (∀ l < p, Carries c.K l w.last) ∧
        ¬ Carries c.K p w.last := by
      refine ⟨Nat.find (exists_not_carries c w), ?_, ?_, Nat.find_spec (exists_not_carries c w)⟩
      · by_contra hle
        exact Nat.find_spec (exists_not_carries c w) (L₁.carries.of_le (Nat.not_lt.mp hle))
      · intro l hl
        exact not_not.mp (Nat.find_min (exists_not_carries c w) hl)
    obtain ⟨p, hlt, hcarries, hnot⟩ := hp
    have hlevel' := rootLevel_push_of_carries 0 hlt hcarries hnot
    rw [hlevel'] at hpow ⊢
    have hplt := (inRange_block hindex hpow le_rfl).level_lt
    have hfuel' : p - w.rootLevel c ≤ kMaxLevels + 1 := by
      unfold kMaxLevels
      omega
    obtain ⟨t₂, hgrow, hrep, hbounds₂⟩ := L₁.growLoop_eq hlt hcarries hnot hindex hpow hfuel'
    have hroot : t₁.root ≠ some (c.idAt (w.rootLevel c) (block c.K (w.rootLevel c) (w.last + 1))) := by
      rw [L₁.root, Ne, Option.some.injEq]
      intro h
      have hmem := L₁.nodes.inRange _ _ (.inl (present_first ⟨one_le_rootLevel, le_rfl⟩))
      have heq := (RvtConfig.idAt_inj hmem L₁.inRange h).2
      have := L₁.carries.block_succ_index
      have := L₁.covers
      omega
    dsimp only
    rw [if_neg hroot]
    exact ⟨t₂, hgrow, hrep, hbounds.trans hbounds₂⟩

end Loose

namespace Rep

variable {c : RvtConfig} {w : RvtWindow} {t : RangeValidationTree}

open RangeValidationTree RvtWindow

/-- **Adding the next index** to the tree of a window gives the tree of the longer window. -/
theorem addRVBNode_eq (R : Rep c w (w.rootLevel c) t) {v : ℤ} (hv : 0 ≤ v)
    (hfit : (w.push v).Fits c) :
    ∃ t', t.addRVBNode c ⟨c.idAt 0 (w.last + 1), v⟩ = .ok t' ∧
      Rep c (w.push v) ((w.push v).rootLevel c) t' ∧ SameBounds t t' := by
  have hindex : w.last + 2 < 2 ^ 56 := hfit.index_lt
  have hpow := hfit.pow_lt
  have hr0 : c.InRange 0 (block c.K 0 (w.last + 1)) := inRange_block hindex hpow (Nat.zero_le _)
  have hr1 : c.InRange 1 (block c.K 1 (w.last + 1)) :=
    inRange_block hindex hpow one_le_rootLevel
  have hright : t.rightmostRvtNode 1 = some (c.idAt 1 (block c.K 1 w.last)) := by
    rw [R.rightmost, if_pos ⟨le_rfl, R.one_le⟩]
  have hmem : w.Present c (w.rootLevel c) 1 (block c.K 1 w.last) := present_last ⟨le_rfl, R.one_le⟩
  -- the value of the index comes last
  have hadd : ∀ {t₁ : RangeValidationTree}, Rep c (w.push 0) ((w.push 0).rootLevel c) t₁ →
      SameBounds t t₁ → ∃ t', t₁.addValueToInternalNodes c
        (some (c.idAt 1 (block c.K 1 (w.last + 1)))) v = .ok t' ∧
      Rep c (w.push v) ((w.push v).rootLevel c) t' ∧ SameBounds t t' := by
    intro t₁ R₁ hbounds
    obtain ⟨nodes, hrun, hrep⟩ := R₁.addLeaf (i := w.last + 1) (Nat.le_succ_of_le w.le) le_rfl hv
    rw [push_eq_addLeaf] at hrep
    exact ⟨_, hrun, hrep, hbounds⟩
  rw [← block_zero c.K (w.last + 1)]
  unfold addRVBNode
  by_cases hcarry : Carries c.K 1 w.last
  · have hcounter := counter_last_of_carries (w.rootLevel c) hcarry
    have hopen := openForInsertion_eq R.nodes hmem hright hcounter.le
    rw [if_neg (Nat.not_lt.mpr hcounter.ge)] at hopen
    obtain ⟨t₀, t₁, hupdate, hinsert, L, hbounds₁⟩ := R.loose hcarry hr1
    obtain ⟨t₂, hinternal, R₂, hbounds₂⟩ := L.addInternalNode_eq ⟨hfit.index_lt, hfit.pow_lt⟩
    obtain ⟨t₃, hval, R₃, hbounds₃⟩ := hadd R₂ (hbounds₁.trans hbounds₂)
    rw [hopen, ok_bind]
    dsimp only
    rw [hr0.level_idAt, hr0.rvbIndex_idAt, new_eq_born hr1 hr0, ok_bind, push_eq_fresh hr1 hr0,
      ok_bind, hupdate, ok_bind, hinsert, ok_bind, L.root, Option.isNone_some,
      if_neg Bool.false_ne_true, pure_eq_ok, ok_bind, hinternal, ok_bind]
    exact ⟨t₃, hval, R₃, hbounds₃⟩
  · have hcounter := counter_last_of_not (w.rootLevel c) hcarry (carries_zero _ _)
    have hopen := openForInsertion_eq R.nodes hmem hright hcounter.le
    rw [if_pos hcounter] at hopen
    have hnot : ¬ Carries c.K (w.rootLevel c) w.last := fun h => hcarry (h.of_le R.one_le)
    have R₁ := R.write_attached hcarry
    rw [← rootLevel_push_of_not 0 hnot] at R₁
    obtain ⟨t₂, hval, R₂, hbounds₂⟩ := hadd R₁ ⟨rfl, rfl⟩
    rw [rootLevel_push_of_not 0 hnot] at hval
    rw [hopen, ok_bind]
    dsimp only
    rw [push_eq_attached (w.rootLevel c) hr0 hcarry (carries_zero _ _), ok_bind,
      ensure_decide (length_attached_le (w.rootLevel c) hcarry (carries_zero _ _))]
    refine ⟨t₂, ?_, R₂, hbounds₂⟩
    rw [← hval, block_succ_index_of_not hcarry]
    rfl

end Rep

/-! ## The first index -/

def RvtWindow.single (i : ℕ) (v : ℤ) : RvtWindow := ⟨i, i, fun j => if j = i then v else 0, le_rfl⟩

namespace RvtWindow

variable {c : RvtConfig} {i : ℕ}

theorem rootLevel_single (v : ℤ) : (single i v).rootLevel c = 1 :=
  rootLevel_eq le_rfl rfl fun _ _ _ => by omega

theorem single_eq_addLeaf (i : ℕ) (v : ℤ) : (single i 0).addLeaf i v = single i v := by
  unfold addLeaf single
  congr 1
  funext j
  dsimp only
  rw [ite_self, zero_add]

theorem newRoot_eq_node : fresh c 0 i = (single i 0).node c 1 1 (block c.K 1 i) := by
  have hvalue : ((single i 0).node c 0 0 (block c.K 0 i)).currentValue = 0 := by
    show total _ _ _ _ 0 _ % _ = 0
    rw [total]
    split_ifs
    · show (if _ then (0 : ℤ) else 0) % _ = 0
      rw [ite_self, Int.zero_emod]
    · exact Int.zero_emod _
  have h := newRoot_addValue (c := c) (single i 0) 0 rfl
  rw [show (single i 0).first = i from rfl, hvalue, addValue_zero] at h
  · exact h
  · exact initialValueAt_emod 1 (block c.K 1 i)

end RvtWindow

namespace RangeValidationTree

variable {c : RvtConfig} {i : ℕ}

open RvtWindow

variable {f : ℕ → ℕ → RVTNode} {P : ℕ → ℕ → Prop} {t : RangeValidationTree}

/-- A new root that is the only node of its level, without an old root or below it. -/
theorem setNewRoot_only {l j : ℕ} (H : Holds c t.idToNode P f) (hP : P l j) (hl : l ≠ 0)
    (hright : t.rightmostRvtNode l = some (c.idAt l j))
    (hleft : t.leftmostRvtNode l = some (c.idAt l j))
    (hold : ∀ old ∈ t.root, level old = l + 1 ∧
      t.updateOpenRvtNodeArrays c .checkRemoveNode old = .ok t) :
    t.setNewRoot c (some (c.idAt l j)) =
      .ok { t.write { f l j with parentId := 0 } with root := some (c.idAt l j) } := by
  have hr := H.inRange l j hP
  have hupdate : update t.rightmostRvtNode l (some (c.idAt l j)) = t.rightmostRvtNode := by
    rw [← hright, update_eq_self]
  have hupdate' : update t.leftmostRvtNode l
      ((t.leftmostRvtNode l).or (some (c.idAt l j))) = t.leftmostRvtNode := by
    rw [hleft, Option.some_or, ← hleft, update_eq_self]
  unfold setNewRoot
  rcases hroot : t.root with _ | old <;> dsimp only
  on_goal 1 => rw [pure_eq_ok]
  on_goal 2 =>
    obtain ⟨hlevel, habsent⟩ := hold old hroot
    rw [hr.level_idAt, hlevel, ensure_decide hl, ensure_decide (.inr rfl), if_neg (by omega),
      habsent]
  -- without an old root or with one, the arrays are as they were
  all_goals
    rw [ok_bind, deref_eq (t := { t with root := some (c.idAt l j) }) H hP, ok_bind,
      updateOpenRvtNodeArrays_add hr]
    · dsimp only [write]
      rw [hupdate, hupdate']
    · exact .inl (hleft.trans hright.symm)

theorem rep_single (hr : c.InRange 1 (block c.K 1 i)) :
    ∃ t₁ t₂ t', empty.updateOpenRvtNodeArrays c .addNodeToRight (c.idAt 1 (block c.K 1 i)) =
        .ok t₁ ∧ t₁.insertNode ((single i 0).node c 1 1 (block c.K 1 i)) = .ok t₂ ∧ t₂.root = none ∧
      t₂.setNewRoot c (some (c.idAt 1 (block c.K 1 i))) = .ok t' ∧
      Rep c (single i 0) 1 t' ∧ SameBounds empty t' := by
  have hempty : Holds c (∅ : Finmap fun _ : ℕ => RVTNode) (fun _ _ => False)
      ((single i 0).node c 1) := by
    refine ⟨fun _ _ h => h.elim, fun _ h => ?_, fun _ _ h => h.elim, fun _ _ h => h.elim⟩
    exact (Finmap.notMem_empty h).elim
  have h1 : Holds c ((∅ : Finmap fun _ : ℕ => RVTNode).insert (c.idAt 1 (block c.K 1 i))
      ((single i 0).node c 1 1 (block c.K 1 i))) ((single i 0).Present c 1)
      ((single i 0).node c 1) := by
    refine hempty.insert_congr ((single i 0).node c 1 1 (block c.K 1 i)) hr rfl
      (fun l j => ⟨?_, ?_⟩) rfl fun _ _ h => h.elim
    · rintro (h | ⟨rfl, rfl⟩)
      · exact h.elim
      · exact present_first ⟨le_rfl, le_rfl⟩
    · rintro ⟨hl, h3, h4⟩
      obtain rfl : l = 1 := by omega
      exact .inr ⟨rfl, le_antisymm h4 h3⟩
  have hparent : { (single i 0).node c 1 1 (block c.K 1 i) with parentId := 0 } =
      (single i 0).node c 1 1 (block c.K 1 i) := by
    unfold node
    rw [if_pos rfl]
  have hmem : (single i 0).Present c 1 1 (block c.K 1 i) := present_first ⟨le_rfl, le_rfl⟩
  have harray := update_succ_ite (n := 0) (g := fun l => some (c.idAt l (block c.K l i))) fun l =>
    (if_neg (by omega)).symm
  refine ⟨_, _, _, updateOpenRvtNodeArrays_add hr (.inl rfl),
    insertNode_of_none (hempty.lookup_eq_none hr id), rfl, setNewRoot_only h1 hmem one_ne_zero ?_ ?_ nofun,
    ⟨le_rfl, rfl, ?_, rfl, harray, harray, rfl⟩, rfl, rfl⟩
  · exact (harray 1).trans (if_pos ⟨le_rfl, le_rfl⟩)
  · exact (harray 1).trans (if_pos ⟨le_rfl, le_rfl⟩)
  · rw [hparent]
    exact h1.set_congr _ hmem (h1.id_eq _ _ hmem) rfl fun _ _ _ _ => rfl

theorem addRVBNode_empty {v : ℤ} (hv : 0 ≤ v) (hfit : (single i v).Fits c) :
    ∃ t', empty.addRVBNode c ⟨c.idAt 0 i, v⟩ = .ok t' ∧
      Rep c (single i v) ((single i v).rootLevel c) t' ∧ SameBounds empty t' := by
  have hindex : i + 1 < 2 ^ 56 := hfit.index_lt
  have hpow := hfit.pow_lt
  have hr0 : c.InRange 0 (block c.K 0 i) := inRange_block hindex hpow (Nat.zero_le _)
  have hr1 : c.InRange 1 (block c.K 1 i) := inRange_block hindex hpow one_le_rootLevel
  obtain ⟨t₁, t₂, t₃, hupdate, hinsert, hnone, hroot, R, hbounds⟩ := rep_single hr1
  obtain ⟨nodes, hval, hrep⟩ := R.addLeaf (i := i) le_rfl le_rfl hv
  have hroot' : t₃.root = some (c.idAt 1 (block c.K 1 i)) := R.root
  have hconnect : connectLoop c (kMaxLevels + 1) t₃ (c.idAt 1 (block c.K 1 i))
      (c.initialValueAt 1 (block c.K 1 i)) = .ok (t₃, c.idAt 1 (block c.K 1 i)) := by
    have hmem : (single i 0).Present c 1 1 (block c.K 1 i) := present_first ⟨le_rfl, le_rfl⟩
    unfold connectLoop
    rw [derefRoot_eq R.nodes hmem R.root, ok_bind, if_pos, pure_eq_ok]
    rfl
  have hparent := parentId_top (c := c) (single i 0) 1 (block c.K 1 i)
  have hinternal : t₃.addInternalNode c ((single i 0).node c 1 1 (block c.K 1 i)) = .ok t₃ := by
    unfold addInternalNode
    rw [ensure_decide hparent]
    show (connectLoop c (kMaxLevels + 1) t₃ (c.idAt 1 (block c.K 1 i))
      (c.initialValueAt 1 (block c.K 1 i)) >>= _) = _
    rw [hconnect, ok_bind]
    dsimp only
    rw [if_pos hroot', pure_eq_ok]
  rw [single_eq_addLeaf] at hrep
  rw [show c.idAt 0 i = c.idAt 0 (block c.K 0 i) by rw [block_zero], rootLevel_single]
  unfold addRVBNode
  rw [show empty.openForInsertion c 1 = .ok none from rfl, ok_bind]
  dsimp only
  rw [hr0.level_idAt, hr0.rvbIndex_idAt, new_eq_born hr1 hr0, ok_bind, push_eq_fresh hr1 hr0, ok_bind,
    newRoot_eq_node, node_id, hupdate, ok_bind,
    hinsert, ok_bind, hnone, Option.isNone_none, if_pos rfl, hroot, ok_bind, hinternal, ok_bind]
  exact ⟨_, hval, hrep, hbounds⟩

end RangeValidationTree

end ConcordBft
