import ConcordBft.RangeTree.Insert

/-!
# New roots, and the whole addition

When the spine of new nodes reaches the level of the root, the tree gets new roots until one of
them covers the spine too (`Loose.growLoop_eq`). With it, `addRVBNode` turns the tree of a window
into the tree of the window with one more index (`Rep.addRVBNode_eq`).
-/

namespace ConcordBft

open Verif Verif.Exec Verif.Kary RVTNode Nat Function

namespace RvtWindow

variable {c : RvtConfig} {w : RvtWindow} {top l j : ℕ}

theorem newRoot_addValue (w : RvtWindow) (top : ℕ)
    (h : block c.K top w.first = block c.K top w.last) :
    (fresh c top w.first).addValue c (w.node c top top (block c.K top w.first)).currentValue =
      w.node c (top + 1) (top + 1) (block c.K (top + 1) w.first) := by
  have hle := block_sub_lt (RvtConfig.K_pos (c := c)) top w.first
  have hfirst : w.firstChild c top (block c.K (top + 1) w.first) = block c.K top w.first := by
    unfold firstChild
    omega
  have hend : w.endChild c top (block c.K (top + 1) w.first) = block c.K top w.first + 1 := by
    unfold endChild
    omega
  have hmeets : Meets c.K w.first w.last (top + 1) (block c.K (top + 1) w.first) :=
    ⟨le_rfl, block_le_block (top + 1)⟩
  have hvalue : w.value c (top + 1) (block c.K (top + 1) w.first) =
      c.initialValueAt (top + 1) (block c.K (top + 1) w.first) +
        w.value c top (block c.K top w.first) := by
    rw [value_succ hmeets, hfirst, hend, Finset.sum_Ico_succ_top le_rfl, Finset.Ico_self,
      Finset.sum_empty, zero_add]
  have hcounter : block c.K top w.first - block c.K (top + 1) w.first * c.K + 1 =
      block c.K top w.first + 1 - block c.K (top + 1) w.first * c.K := by omega
  unfold fresh node childIds addValue
  rw [if_pos rfl, if_pos rfl, Nat.add_sub_cancel, hfirst, hend, hvalue, List.Ico.succ_singleton,
    hcounter]
  dsimp only [RvtConfig.born]
  rw [← add_brought, initialValueAt_emod]
  rfl

end RvtWindow

namespace Loose

variable {c : RvtConfig} {w : RvtWindow} {top m : ℕ} {t : RangeValidationTree}

open RangeValidationTree RvtWindow

theorem derefRoot_eq (L : Loose c w top m t) :
    t.derefRoot = .ok (w.node c top top (block c.K top w.first)) := by
  have hmem : w.Present c top top (block c.K top w.first) :=
    present_first ⟨by have := L.one_le; have := L.le; omega, le_rfl⟩
  rw [RangeValidationTree.derefRoot_eq L.nodes (.inl hmem) L.root, if_neg]
  rintro ⟨hle, heq⟩
  have htop : top = m := le_antisymm hle L.le
  have hnew := L.carries.block_succ_index
  rw [← htop] at hnew
  have := L.covers
  omega

theorem setNewRoot_eq (L : Loose c w top top t)
    (hr : c.InRange (top + 1) (block c.K (top + 1) w.first)) :
    ∃ t', (t.write (w.node c (top + 1) (top + 1) (block c.K (top + 1) w.first))).setNewRoot c
        (some (c.idAt (top + 1) (block c.K (top + 1) w.first))) = .ok t' ∧
      Loose c w (top + 1) top t' ∧ SameBounds t t' := by
  have hrtop : c.InRange top (block c.K top w.first) :=
    L.nodes.inRange _ _ (.inl (present_first ⟨L.one_le, le_rfl⟩))
  have hnew := L.carries.block_succ_index
  have hcov := L.covers
  have hne : block c.K top w.first ≠ block c.K top (w.last + 1) := by omega
  have hcov' : block c.K (top + 1) w.first = block c.K (top + 1) w.last := by
    rw [block_succ, block_succ, hcov]
  -- the new root, then the old root with its parent
  have h1 := L.nodes.insert hr
    (w.node c (top + 1) (top + 1) (block c.K (top + 1) w.first)) rfl
  have hmem : w.Present c top top (block c.K top w.first) := present_first ⟨L.one_le, le_rfl⟩
  have h2 := h1.set (l := top) (j := block c.K top w.first) (.inl (.inl hmem))
    (w.node c (top + 1) top (block c.K top w.first)) rfl
  have hold : (t.write (w.node c (top + 1) (top + 1) (block c.K (top + 1) w.first))).deref
      (c.idAt top (block c.K top w.first)) = .ok (w.node c top top (block c.K top w.first)) := by
    rw [deref_eq (t := t.write _) h1 (.inl (.inl hmem)), if_neg (by omega), if_neg fun h => hne h.2]
  have hroot : { w.node c (top + 1) (top + 1) (block c.K (top + 1) w.first) with parentId := 0 } =
      w.node c (top + 1) (top + 1) (block c.K (top + 1) w.first) := by
    unfold node
    rw [if_pos rfl]
  have hleft : t.leftmostRvtNode (top + 1) = none := by
    rw [L.leftmost, if_neg (by omega)]
  have hright : t.rightmostRvtNode (top + 1) = none := by
    rw [L.rightmost, if_neg (by omega), if_neg (by omega)]
  unfold setNewRoot
  dsimp only
  rw [write_root, L.root]
  dsimp only
  rw [hr.level_idAt, hrtop.level_idAt, ensure_decide (show top + 1 ≠ 0 by omega),
    ensure_decide (.inl rfl), if_pos (lt_succ_self top), hold, ok_bind, pure_eq_ok, ok_bind,
    node_setParent w top w.first top.succ_ne_self.symm]
  rw [deref_eq (t := { (t.write _).write _ with root := _ }) h2 (.inr ⟨rfl, rfl⟩),
    if_neg (by omega), if_pos ⟨rfl, rfl⟩, ok_bind, hroot, updateOpenRvtNodeArrays_add hr]
  swap
  · exact .inl (hleft.trans hright.symm)
  refine ⟨_, rfl, ⟨L.one_le, le_succ top, L.carries, hcov', ?_, rfl, ?_, ?_, L.erase⟩, rfl, rfl⟩
  · refine Holds.of_iff (h2.set_congr (w.node c (top + 1) (top + 1) (block c.K (top + 1) w.first))
      (.inr ⟨rfl, rfl⟩) rfl ?_ fun l j hP hl => ?_) fun l j => ?_
    · exact if_neg (by omega)
    · have hle : l ≤ top := by
        rcases hP with (⟨h, -⟩ | ⟨h, -⟩) | h
        · exact h.2
        · exact h.2
        · exact absurd h hl
      rcases eq_or_ne l top with rfl | hlt
      · by_cases hj : j = block c.K l w.first
        · rw [if_pos ⟨rfl, hj⟩, if_neg fun h => hne (hj.symm.trans h.2), hj]
        · have hspine : j = block c.K l (w.last + 1) := by
            rcases hP with (⟨-, h4, h5⟩ | ⟨-, h⟩) | ⟨h, -⟩ <;> omega
          rw [if_neg fun h => hj h.2, if_neg (by omega), if_pos ⟨le_rfl, hspine⟩,
            if_pos ⟨le_rfl, hspine⟩]
      · rw [if_neg fun h => hlt h.1, if_neg (by omega)]
        by_cases hj : j = block c.K l (w.last + 1)
        · rw [if_pos ⟨hle, hj⟩, if_pos ⟨hle, hj⟩]
        · rw [if_neg fun h => hj h.2, if_neg fun h => hj h.2]
          exact node_top_congr hlt (by omega)
    · constructor
      · rintro ((⟨h, h'⟩ | h) | ⟨rfl, rfl⟩)
        · exact .inl ⟨⟨h.1, by omega⟩, h'⟩
        · exact .inr h
        · exact .inl (present_first ⟨by omega, le_rfl⟩)
      · rintro (⟨h, h4, h5⟩ | h)
        · rcases eq_or_ne l (top + 1) with rfl | hl
          · exact .inr ⟨rfl, by omega⟩
          · exact .inl (.inl ⟨⟨h.1, by omega⟩, h4, h5⟩)
        · exact .inl (.inr h)
  · intro l
    show update t.rightmostRvtNode (top + 1) _ l = _
    rcases eq_or_ne l (top + 1) with rfl | hl
    · rw [update_self, if_neg (by omega), if_pos (by omega), hcov']
    · rw [update_of_ne hl, L.rightmost]
      by_cases h : 1 ≤ l ∧ l ≤ top
      · rw [if_pos h, if_pos h]
      · rw [if_neg h, if_neg h, if_neg h, if_neg (by omega)]
  · intro l
    show update t.leftmostRvtNode (top + 1) ((t.leftmostRvtNode (top + 1)).or _) l = _
    rw [hleft]
    exact update_succ_ite L.leftmost l

theorem sibling_eq (L : Loose c w (top + 1) top t) (hcarry : Carries c.K (top + 1) w.last)
    (hr : c.InRange (top + 1) (block c.K (top + 1) (w.last + 1))) :
    ∃ t', ((((t.write (c.born (top + 1) (block c.K (top + 1) (w.last + 1)))).write
          { (w.push 0).node c top top (block c.K top (w.last + 1)) with
            parentId := c.idAt (top + 1) (block c.K (top + 1) (w.last + 1)) }).write
          ((w.push 0).node c (top + 1) (top + 1)
            (block c.K (top + 1) (w.last + 1)))).updateOpenRvtNodeArrays c .addNodeToRight
          (c.idAt (top + 1) (block c.K (top + 1) (w.last + 1)))) = .ok t' ∧
      Loose c w (top + 1) (top + 1) t' ∧ SameBounds t t' := by
  have hne : c.idAt (top + 1) (block c.K (top + 1) (w.last + 1)) ≠
      c.idAt top (block c.K top (w.last + 1)) := by
    intro h
    have := (RvtConfig.idAt_inj hr L.inRange h).1
    omega
  rw [updateOpenRvtNodeArrays_add hr]
  swap
  · exact .inr (L.both_isSome (lt_succ_self top))
  refine ⟨_, rfl, L.update_succ (lt_succ_self top) hcarry hr ?_, rfl, rfl⟩
  rw [← node_setParent _ _ _ top.succ_ne_self.symm]
  show ((t.idToNode.insert (c.idAt (top + 1) (block c.K (top + 1) (w.last + 1))) _).insert
    (c.idAt top (block c.K top (w.last + 1))) _).insert
    (c.idAt (top + 1) (block c.K (top + 1) (w.last + 1))) _ = _
  rw [Finmap.insert_insert_of_ne _ hne.symm, Finmap.insert_insert]

/-- **The second loop**: new roots up to the level `p` where the root and the spine share one. -/
theorem growLoop_eq (L : Loose c w top top t) {p fuel : ℕ} (htop : top < p)
    (hcarries : ∀ l < p, Carries c.K l w.last) (hnot : ¬ Carries c.K p w.last)
    (hindex : w.last + 2 < 2 ^ 56) (hpow : c.K ^ p < 2 ^ 64) (hfuel : p - top ≤ fuel) :
    ∃ t', growLoop c fuel t (c.idAt top (block c.K top (w.last + 1))) = .ok t' ∧
      Rep c (w.push 0) p t' ∧ SameBounds t t' := by
  induction fuel generalizing t top with
  | zero => omega
  | succ fuel ih =>
    have hfirst : w.first + 1 < 2 ^ 56 := by
      have := w.le
      omega
    have hr : c.InRange (top + 1) (block c.K (top + 1) w.first) := inRange_block hfirst hpow htop
    have hr' : c.InRange (top + 1) (block c.K (top + 1) (w.last + 1)) :=
      inRange_block hindex hpow htop
    have hrtop : c.InRange top (block c.K top w.first) := inRange_block hfirst hpow htop.le
    have hrootParent := (show c.InRange (top + 1) (block c.K top w.first / c.K) by
      rw [block_div]; exact hr).parentRvbIndexFromChild hrtop
    have hsibParent := (show c.InRange (top + 1) (block c.K top (w.last + 1) / c.K) by
      rw [block_div]; exact hr').parentRvbIndexFromChild L.inRange
    have hlookup : t.idToNode.lookup
        (w.node c (top + 1) (top + 1) (block c.K (top + 1) w.first)).id = none := by
      refine L.nodes.lookup_eq_none hr ?_
      rintro (⟨h, -⟩ | ⟨h, -⟩) <;> omega
    have hlen : (w.node c (top + 1) (top + 1) (block c.K (top + 1) w.first)).childIds.length ≤
        c.K := length_childIds_le w top (block c.K (top + 1) w.first)
    obtain ⟨t₁, hset, L₁, hbounds₁⟩ := L.setNewRoot_eq hr
    rw [growLoop, L.derefRoot_eq, ok_bind, L.deref_end, ok_bind, node_id, hrtop.level_idAt,
      hrtop.rvbIndex_idAt, L.inRange.level_idAt, L.inRange.rvbIndex_idAt, hrootParent, ok_bind,
      hsibParent, ok_bind, new_eq_born hr hrtop, ok_bind, push_eq_fresh hr hrtop, ok_bind]
    dsimp only
    rw [newRoot_addValue w top L.covers, insertNode_of_none hlookup, ok_bind, node_id, hset,
      ok_bind, ensure_decide hlen, block_div, block_div]
    by_cases hcarry : Carries c.K (top + 1) w.last
    · -- the root and the spine have different parents
      have hlt : top + 1 < p := by
        rcases lt_or_ge (top + 1) p with h | h
        · exact h
        · rw [show p = top + 1 by omega] at hnot
          exact absurd hcarry hnot
      have hdiff : block c.K (top + 1) w.first * c.K ^ (top + 1) + 1 ≠
          block c.K (top + 1) (w.last + 1) * c.K ^ (top + 1) + 1 := by
        intro h
        have h' := eq_of_mul_eq_mul_right RvtConfig.pow_pos (add_right_cancel h)
        have hnew := hcarry.block_succ_index
        have hcov : block c.K (top + 1) w.first = block c.K (top + 1) w.last := L₁.covers
        omega
      have hinsert : t₁.insertNode (c.born (top + 1) (block c.K (top + 1) (w.last + 1))) =
          .ok (t₁.write (c.born (top + 1) (block c.K (top + 1) (w.last + 1)))) :=
        insertNode_of_none (L₁.lookup_next hcarry hr')
      have hlen' : ((w.push 0).node c (top + 1) (top + 1)
          (block c.K (top + 1) (w.last + 1))).childIds.length ≤ c.K :=
        length_childIds_le (w.push 0) top (block c.K (top + 1) (w.last + 1))
      obtain ⟨t₂, hsib, L₂, hbounds₂⟩ := L₁.sibling_eq hcarry hr'
      obtain ⟨t₃, hloop, hrep, hbounds₃⟩ := ih L₂ hlt (by omega)
      have hvalue : (fresh c top (w.last + 1)).addValue c
          ((w.push 0).node c top top (block c.K top (w.last + 1))).currentValue =
          (w.push 0).node c (top + 1) (top + 1) (block c.K (top + 1) (w.last + 1)) := by
        rw [currentValue_new L.carries, fresh_addValue hcarry]
      rw [if_pos hdiff, new_eq_born hr' L.inRange, ok_bind, hinsert, ok_bind,
        push_eq_fresh hr' L.inRange, ok_bind, hvalue]
      refine ⟨t₃, ?_, hrep, (hbounds₁.trans hbounds₂).trans hbounds₃⟩
      rw [← hloop, decide_eq_true hlen']
      exact congrArg (fun run => run >>= fun t => ensure true >>= fun _ =>
        growLoop c fuel t (c.idAt (top + 1) (block c.K (top + 1) (w.last + 1)))) hsib
    · -- the new root is their common parent
      obtain rfl : p = top + 1 := by
        by_contra hne
        exact hcarry (hcarries (top + 1) (by omega))
      have hcov : block c.K (top + 1) w.first = block c.K (top + 1) w.last := L₁.covers
      rw [block_succ_index_of_not hcarry, ← hcov, if_neg (not_not.mpr rfl)]
      have hpush := push_eq_attached (top + 1) L.inRange hcarry L.carries
      have hlen' : ((w.attached c (top + 1) top).addValue c
          ((w.push 0).node c top top (block c.K top (w.last + 1))).currentValue).childIds.length ≤
          c.K := length_attached_le (top + 1) hcarry L.carries
      have hlift := L₁.lifted_attach (lt_succ_self top) hcarry
      rw [← hcov, ← currentValue_new L.carries top] at hlift
      rw [← hcov] at hpush
      rw [hpush, ok_bind, ensure_decide hlen']
      exact ⟨_, rfl, hlift.rep, hbounds₁⟩

end Loose

end ConcordBft
