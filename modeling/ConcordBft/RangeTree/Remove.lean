import ConcordBft.RangeTree.Trim
import Mathlib.Data.Nat.Prime.Basic

/-!
# New roots, and the whole removal

When the index has left the nodes, a root with a single child gives way to it until the root is on
the least level that covers the window (`Shrink.shrinkLoop_eq`). The nodes that are gone stay in the
map until `removeLeftNode` erases them. When a root gives way, the root and the node after it must
not have the same id, which is why its span is no multiple of `2 ^ 56`.

So `removeRVBNode` turns the tree of a window into the tree of the window without its first index,
but for the nodes that are still to be erased (`Rep.removeRVBNode_eq`), and the tree of one index
into the empty tree (`Rep.removeRVBNode_single`).
-/

namespace ConcordBft

open Verif Verif.Exec Verif.Kary Nat NodeInfo Function Finmap List

namespace RangeValidationTree

variable {c : RvtConfig} {t : RangeValidationTree} {l j : ℕ}

theorem updateOpenRvtNodeArrays_absent (hr : c.InRange l j) (hleft : t.leftmostRvtNode l = none)
    (hright : t.rightmostRvtNode l = none) :
    t.updateOpenRvtNodeArrays c .checkRemoveNode (c.idAt l j) = .ok t := by
  have hl := hr.level_lt
  have hsame : update t.leftmostRvtNode l none = t.leftmostRvtNode := by
    rw [← hleft, update_eq_self]
  have hsame' : update t.rightmostRvtNode l none = t.rightmostRvtNode := by
    rw [← hright, update_eq_self]
  have hne : ¬ (none : Option ℕ) = some (c.idAt l j) := by
    intro h
    cases h
  unfold updateOpenRvtNodeArrays
  rw [hr.level_idAt]
  dsimp only
  rw [checkLevel_of_lt (by omega), ok_bind, hleft, hright, decide_eq_true rfl, Bool.true_or,
    ensure_true, ok_bind, decide_eq_false hne, Bool.false_and, Bool.not_false, ensure_true, ok_bind,
    if_neg hne, pure_eq_ok, ok_bind, if_neg hne, hsame, hsame', pure_eq_ok]

end RangeValidationTree

namespace RvtWindow

variable {c : RvtConfig} {w : RvtWindow} {l : ℕ}

theorem length_childIds_of_covers (h : block c.K (l + 1) w.first = block c.K (l + 1) w.last) :
    (w.childIds c l (block c.K (l + 1) w.first)).length =
      block c.K l w.last + 1 - block c.K l w.first := by
  unfold childIds
  rw [length_map, List.Ico.length, firstChild_first, h, endChild_last]

end RvtWindow

/-! ## The nodes that are gone -/

/-- The blocks that the index closed, and the roots above level `top`. -/
def Gone (c : RvtConfig) (w : RvtWindow) (orig top l j : ℕ) : Prop :=
  (1 ≤ l ∧ l ≤ orig ∧ Carries c.K l w.first ∧ j = block c.K l w.first) ∨
    (top < l ∧ l ≤ orig ∧ j = block c.K l (w.first + 1))

/-- The tree of the shorter window up to level `top`, with the nodes that are gone. -/
structure Shrink (c : RvtConfig) (w : RvtWindow) (h : w.first < w.last) (orig top : ℕ)
    (t : RangeValidationTree) (f : ℕ → ℕ → RVTNode) : Prop where
  one_le : 1 ≤ top
  le : top ≤ orig
  covers_orig : block c.K orig w.first = block c.K orig w.last
  covers : block c.K top (w.first + 1) = block c.K top w.last
  nodes : Holds c t.idToNode
    (fun l j => (w.pop h).Present c top l j ∨ Gone c w orig top l j) f
  node_eq : ∀ l j, (w.pop h).Present c top l j → f l j = (w.pop h).node c top l j
  root : t.root = some (c.idAt top (block c.K top (w.first + 1)))
  rightmost : ∀ l, t.rightmostRvtNode l =
    if 1 ≤ l ∧ l ≤ top then some (c.idAt l (block c.K l w.last)) else none
  leftmost : ∀ l, t.leftmostRvtNode l =
    if 1 ≤ l ∧ l ≤ top then some (c.idAt l (block c.K l (w.first + 1))) else none
  erase : ∀ id, id ∈ t.nodeIdsToErase ↔ ∃ l j, Gone c w orig top l j ∧ id = c.idAt l j

variable {f : ℕ → ℕ → RVTNode} {t : RangeValidationTree}

theorem Trim.shrink {c : RvtConfig} {w : RvtWindow} {h : w.first < w.last} {top p k : ℕ}
    (T : Trim c w h top (top + 1) p k t f)
    (htop : 1 ≤ top) (hk : top ≤ k) (hk' : k ≤ top + 1) : Shrink c w h top top t f := by
  have hnot := T.not_carries_top
  have hsame := block_succ_index_of_not hnot
  have hlow : ∀ l, 1 ≤ l ∧ l ≤ top → block c.K l (if l < k then w.first + 1 else w.first) =
      block c.K l (w.first + 1) := by
    intro l hl
    split_ifs with hlk
    · rfl
    · obtain rfl : l = top := by omega
      rw [hsame]
  refine ⟨htop, le_rfl, T.covers, hsame.trans T.covers, ?_, ?_, ?_, T.rightmost, ?_, ?_⟩
  · refine T.nodes.congr ?_ fun _ _ _ => rfl
    intro l j
    have hstep := block_succ_index_le c.K l w.first
    have hmono := block_mono c.K l (le_add_right w.first 1)
    have hlast := block_mono c.K l (show w.first + 1 ≤ w.last from h)
    constructor
    · rintro ⟨hl, h1, h2⟩
      by_cases hj : block c.K l (w.first + 1) ≤ j
      · exact .inl ⟨hl, hj, h2⟩
      · refine .inr (.inl ⟨hl.1, hl.2, ?_, by omega⟩)
        by_contra hcarry
        rw [block_succ_index_of_not hcarry] at hj
        omega
    · rintro (⟨hl, h1 : block c.K l (w.first + 1) ≤ j, h2⟩ | ⟨h1, h2, -, rfl⟩ | ⟨h1, h2, -⟩)
      · exact ⟨hl, le_trans hmono h1, h2⟩
      · exact RvtWindow.present_first ⟨h1, h2⟩
      · omega
  · rintro l j ⟨hl, h1 : block c.K l (w.first + 1) ≤ j, h2⟩
    have hmono := block_mono c.K l (le_add_right w.first 1)
    rcases eq_or_lt_of_le (le_trans hmono h1) with rfl | hlt
    · refine T.done l hl.1 (by omega) hl.2 fun hcarry => ?_
      rw [hcarry.block_succ_index] at h1
      omega
    · rw [T.right l j ⟨hl, hlt.le, h2⟩ hlt, RvtWindow.node_pop_of_gt h hl.1 hlt]
  · rw [T.root, hsame]
  · intro l
    rw [T.leftmost]
    by_cases hl : 1 ≤ l ∧ l ≤ top
    · rw [if_pos hl, if_pos hl, hlow l hl]
    · rw [if_neg hl, if_neg hl]
  · intro id
    rw [T.erase]
    constructor
    · rintro ⟨l, h1, h2, h3, h4⟩
      refine ⟨l, _, .inl ⟨h1, ?_, h3, rfl⟩, h4⟩
      by_contra hl
      exact hnot (h3.of_le (by omega))
    · rintro ⟨l, j, ⟨h1, h2, h3, rfl⟩ | ⟨h1, h2, -⟩, h4⟩
      · have := T.lt_top_of_carries h2 h3
        exact ⟨l, h1, by omega, h3, h4⟩
      · omega

namespace Shrink

variable {c : RvtConfig} {w : RvtWindow} {h : w.first < w.last} {orig top : ℕ}
  {t : RangeValidationTree} {f : ℕ → ℕ → RVTNode}

open RangeValidationTree RvtWindow

section

variable (S : Shrink c w h orig top t f)

include S

theorem present_root : (w.pop h).Present c top top (block c.K top (w.first + 1)) :=
  present_first (w := w.pop h) ⟨S.one_le, le_rfl⟩

theorem inRange_root :
    c.InRange top (block c.K top (w.first + 1)) := S.nodes.inRange _ _ (.inl S.present_root)

theorem derefRoot_eq :
    t.derefRoot = .ok ((w.pop h).node c top top (block c.K top (w.first + 1))) := by
  rw [RangeValidationTree.derefRoot_eq S.nodes (.inl S.present_root) S.root,
    S.node_eq _ _ S.present_root]

theorem lookup_after_root (hmod : c.K ^ orig % 2 ^ 56 ≠ 0) :
    t.idToNode.lookup (c.idAt top (block c.K top (w.first + 1) + 1)) = none := by
  have hlevel := S.inRange_root.level_lt
  have hnot : ¬ 2 ^ 56 ∣ c.K ^ orig := fun hdvd => hmod (mod_eq_zero_of_dvd hdvd)
  rw [lookup_eq_none]
  intro hmem
  obtain ⟨l, j, hP, heq⟩ := S.nodes.only _ hmem
  have hr := S.nodes.inRange l j hP
  obtain rfl : top = l := by
    rw [← hr.level_idAt, ← heq]
    exact (level_id (by omega)).symm
  have hindex : ((block c.K top (w.first + 1) + 1) * c.K ^ top + 1) % 2 ^ 56 =
      j * c.K ^ top + 1 := by
    have h1 := hr.rvbIndex_idAt
    rw [← heq] at h1
    unfold NodeInfo.rvbIndex RvtConfig.idAt NodeInfo.id at h1
    omega
  have hdvd : ∀ d, block c.K top (w.first + 1) + 1 = j + d → 2 ^ 56 ∣ d * c.K ^ top := by
    intro d hd
    have h1 := div_add_mod ((block c.K top (w.first + 1) + 1) * c.K ^ top + 1) (2 ^ 56)
    rw [hindex, hd, add_mul] at h1
    exact ⟨((j * c.K ^ top + d * c.K ^ top + 1) / 2 ^ 56), by omega⟩
  rcases hP with ⟨-, h1 : block c.K top (w.first + 1) ≤ j, h2⟩ | ⟨-, -, hcarry, rfl⟩ | ⟨h1, -⟩
  · have h3 := hdvd 1 (by have h2' : j ≤ block c.K top w.last := h2; have := S.covers; omega)
    rw [one_mul] at h3
    exact hnot (h3.trans (pow_dvd_pow c.K S.le))
  · -- the block that was closed is two before; then the level is not the highest of the tree
    have h3 := hdvd 2 (by rw [hcarry.block_succ_index])
    have hlt : top < orig := by
      refine lt_of_le_of_ne S.le ?_
      rintro rfl
      have := block_first_lt h hcarry
      have := S.covers_orig
      omega
    have heven : 2 ∣ c.K := by
      have h4 : 2 ^ 55 ∣ c.K ^ top := Nat.dvd_of_mul_dvd_mul_left (by decide : 0 < 2) h3
      exact Nat.prime_two.dvd_of_dvd_pow (Nat.dvd_trans (by decide) h4)
    have h5 : 2 * c.K ^ top ∣ c.K ^ (top + 1) := by
      rw [pow_succ']
      exact Nat.mul_dvd_mul_right heven _
    exact hnot ((h3.trans h5).trans (pow_dvd_pow c.K hlt))
  · omega

end

/-- **A root with a single child** gives way to it. -/
theorem gone_iff {l j : ℕ} (hle : top + 1 ≤ orig) : Gone c w orig top l j ↔
    Gone c w orig (top + 1) l j ∨ l = top + 1 ∧ j = block c.K (top + 1) (w.first + 1) := by
  unfold Gone
  rw [or_assoc]
  refine or_congr_right ⟨?_, ?_⟩
  · rintro ⟨h1, h2, h3⟩
    rcases lt_or_ge (top + 1) l with hlt | hge
    · exact .inl ⟨hlt, h2, h3⟩
    · obtain rfl : l = top + 1 := by omega
      exact .inr ⟨rfl, h3⟩
  · rintro (⟨h1, h2, h3⟩ | ⟨rfl, h3⟩)
    · exact ⟨by omega, h2, h3⟩
    · exact ⟨lt_succ_self top, hle, h3⟩

theorem present_iff {l j : ℕ} (S : Shrink c w h orig (top + 1) t f) :
    (w.pop h).Present c (top + 1) l j ↔
      (w.pop h).Present c top l j ∨ l = top + 1 ∧ j = block c.K (top + 1) (w.first + 1) := by
  constructor
  · rintro ⟨hl, h1, h2⟩
    rcases lt_or_ge top l with hlt | hge
    · obtain rfl : l = top + 1 := by omega
      exact .inr ⟨rfl, le_antisymm (h2.trans_eq S.covers.symm) h1⟩
    · exact .inl ⟨⟨hl.1, hge⟩, h1, h2⟩
  · rintro (⟨hl, hmeets⟩ | ⟨rfl, rfl⟩)
    · exact ⟨⟨hl.1, by omega⟩, hmeets⟩
    · exact S.present_root

theorem setNewRoot_eq (S : Shrink c w h orig (top + 1) t f) (htop : 1 ≤ top)
    (hmod : c.K ^ orig % 2 ^ 56 ≠ 0) (hcov : block c.K top (w.first + 1) = block c.K top w.last) :
    ∃ t₁ t' f', { t with
        nodeIdsToErase := t.nodeIdsToErase.insert
          (c.idAt (top + 1) (block c.K (top + 1) (w.first + 1))) }.updateOpenRvtNodeArrays c
          .checkRemoveNode (c.idAt (top + 1) (block c.K (top + 1) (w.first + 1))) = .ok t₁ ∧
      t₁.setNewRoot c (t₁.rightmostRvtNode top) = .ok t' ∧ Shrink c w h orig top t' f' ∧
      SameBounds t t' := by
  have hr := S.inRange_root
  have hnew : (w.pop h).Present c (top + 1) top (block c.K top (w.first + 1)) :=
    present_first (w := w.pop h) ⟨htop, le_succ top⟩
  have hleft : t.leftmostRvtNode (top + 1) =
      some (c.idAt (top + 1) (block c.K (top + 1) (w.first + 1))) := by
    rw [S.leftmost, if_pos ⟨S.one_le, le_rfl⟩]
  have hright : t.rightmostRvtNode (top + 1) =
      some (c.idAt (top + 1) (block c.K (top + 1) (w.first + 1))) := by
    rw [S.rightmost, if_pos ⟨S.one_le, le_rfl⟩, S.covers]
  have hparent : { f top (block c.K top (w.first + 1)) with parentId := 0 } =
      (w.pop h).node c top top (block c.K top (w.first + 1)) := by
    rw [S.node_eq _ _ hnew]
    unfold node
    rw [if_pos rfl]
  have hnodes := S.nodes.set (.inl hnew) ((w.pop h).node c top top (block c.K top (w.first + 1)))
    rfl
  -- the tree without the old root in the arrays
  obtain ⟨t₁, ht₁⟩ : ∃ t₁ : RangeValidationTree, t₁ = { t with
      nodeIdsToErase := t.nodeIdsToErase.insert
        (c.idAt (top + 1) (block c.K (top + 1) (w.first + 1)))
      leftmostRvtNode := update t.leftmostRvtNode (top + 1) none
      rightmostRvtNode := update t.rightmostRvtNode (top + 1) none } := ⟨_, rfl⟩
  have hrightmost : ∀ l, t₁.rightmostRvtNode l =
      if 1 ≤ l ∧ l ≤ top then some (c.idAt l (block c.K l w.last)) else none := by
    intro l
    rw [ht₁]
    exact update_none_ite S.rightmost l
  have hleftmost : ∀ l, t₁.leftmostRvtNode l =
      if 1 ≤ l ∧ l ≤ top then some (c.idAt l (block c.K l (w.first + 1))) else none := by
    intro l
    rw [ht₁]
    exact update_none_ite S.leftmost l
  have hright₁ : t₁.rightmostRvtNode top = some (c.idAt top (block c.K top (w.first + 1))) := by
    rw [hrightmost, if_pos ⟨htop, le_rfl⟩, hcov]
  have hnodes₁ : t₁.idToNode = t.idToNode := by rw [ht₁]
  have hset := setNewRoot_only (hnodes₁ ▸ S.nodes) (.inl hnew) (ne_zero_of_lt htop) hright₁
    (by rw [hleftmost, if_pos ⟨htop, le_rfl⟩]) fun old hold => by
      rw [ht₁] at hold
      obtain rfl := Option.some.inj (S.root.symm.trans hold)
      exact ⟨hr.level_idAt, updateOpenRvtNodeArrays_absent hr
        (by rw [hleftmost, if_neg (by omega)]) (by rw [hrightmost, if_neg (by omega)])⟩
  rw [hparent] at hset
  refine ⟨t₁, _, fun l j => if l = top ∧ j = block c.K top (w.first + 1) then
      (w.pop h).node c top top (block c.K top (w.first + 1)) else f l j, ?_,
    (congrArg (t₁.setNewRoot c) hright₁).trans hset, ⟨htop, le_of_succ_le S.le, S.covers_orig,
    hcov, ?_, ?_, rfl, hrightmost, hleftmost, ?_⟩, ?_, ?_⟩
  · rw [ht₁]
    refine (updateOpenRvtNodeArrays_remove hr ?_ ?_).trans ?_
    · exact hleft
    · exact hright ▸ rfl
    · dsimp only
      rw [S.lookup_after_root hmod, if_pos hright]
      rfl
  · show Holds c (t₁.idToNode.insert _ _) _ _
    rw [hnodes₁]
    refine hnodes.congr (fun l j => ?_) fun _ _ _ => rfl
    rw [S.present_iff, gone_iff S.le, or_assoc, or_comm (a := l = _ ∧ _)]
  · rintro l j ⟨hl, h1, h2⟩
    split_ifs with hlj
    · rw [hlj.1, hlj.2]
    · rw [S.node_eq l j ⟨⟨hl.1, by omega⟩, h1, h2⟩]
      apply node_top_congr
      · omega
      · rintro rfl
        have h1' : block c.K l (w.first + 1) ≤ j := h1
        have h2' : j ≤ block c.K l w.last := h2
        exact hlj ⟨rfl, by omega⟩
  · intro id
    show id ∈ t₁.nodeIdsToErase ↔ _
    rw [ht₁]
    show id ∈ t.nodeIdsToErase.insert _ ↔ _
    rw [mem_insert_iff, S.erase]
    simp only [gone_iff S.le, or_and_right, exists_or, and_assoc, exists_and_left, exists_eq_left]
    exact or_comm
  · show t₁.minRvbIndex = _
    rw [ht₁]
  · show t₁.maxRvbIndex = _
    rw [ht₁]

/-- **The second loop** comes to the least level that covers the window. -/
theorem shrinkLoop_eq (S : Shrink c w h orig top t f)
    (hmod : (w.pop h).rootLevel c < orig → c.K ^ orig % 2 ^ 56 ≠ 0) {fuel : ℕ} (hfuel : top ≤ fuel) :
    ∃ t' f', shrinkLoop c fuel t = .ok t' ∧
      Shrink c w h orig ((w.pop h).rootLevel c) t' f' ∧ SameBounds t t' := by
  induction fuel generalizing t f top with
  | zero =>
    have := S.one_le
    omega
  | succ fuel ih =>
    have hone := S.one_le
    obtain ⟨l, rfl⟩ := Nat.exists_eq_add_of_le' hone
    have hlen : ((w.pop h).node c (l + 1) (l + 1)
        (block c.K (l + 1) (w.first + 1))).childIds.length =
        block c.K l w.last + 1 - block c.K l (w.first + 1) :=
      length_childIds_of_covers (w := w.pop h) S.covers
    have hle := block_mono c.K l (show w.first + 1 ≤ w.last from h)
    rw [shrinkLoop, S.derefRoot_eq, ok_bind, node_id, S.inRange_root.level_idAt, hlen]
    by_cases hsingle : block c.K l w.last + 1 - block c.K l (w.first + 1) = 1 ∧ 1 < l + 1
    · have hcov : block c.K l (w.first + 1) = block c.K l w.last := by omega
      have hl : 1 ≤ l := by omega
      have hlevel : (w.pop h).rootLevel c < orig := by
        have := rootLevel_le (w := w.pop h) hl hcov
        have := S.le
        omega
      obtain ⟨t₁, t₂, f₂, hupdate, hset, S₂, hbounds₁⟩ := S.setNewRoot_eq hl (hmod hlevel) hcov
      obtain ⟨t₃, f₃, hloop, S₃, hbounds₂⟩ := ih S₂ (by omega)
      have hsame : t.rightmostRvtNode l = t.leftmostRvtNode l := by
        rw [S.rightmost, S.leftmost, if_pos (by omega), if_pos (by omega), hcov]
      rw [if_pos hsingle, Nat.add_sub_cancel]
      dsimp only
      rw [ensure_decide hsame, hupdate, ok_bind, hset, ok_bind]
      exact ⟨t₃, f₃, hloop, S₃, hbounds₁.trans hbounds₂⟩
    · have hlevel : (w.pop h).rootLevel c = l + 1 := by
        refine rootLevel_eq hone S.covers fun l' h1 h2 => ?_
        have hlt : block c.K l (w.pop h).first < block c.K l (w.pop h).last := by
          show block c.K l (w.first + 1) < block c.K l w.last
          omega
        exact lt_of_le_of_ne (block_le_block l') fun heq => hlt.ne (block_eq_of_le heq (by omega))
      rw [if_neg hsingle, pure_eq_ok, hlevel]
      exact ⟨t, f, rfl, S, SameBounds.refl t⟩

end Shrink

/-! ## Erasing -/

theorem lookup_foldl_erase (ids : List ℕ) (m : Finmap fun _ : ℕ => RVTNode) (id : ℕ) :
    (ids.foldl (fun m id => m.erase id) m).lookup id = if id ∈ ids then none else m.lookup id := by
  induction ids generalizing m with
  | nil => rfl
  | cons head ids ih =>
    rw [foldl_cons, ih]
    by_cases hmem : id ∈ ids
    · rw [if_pos hmem, if_pos (mem_cons_of_mem _ hmem)]
    · rw [if_neg hmem]
      by_cases hid : id = head
      · rw [hid, lookup_erase, if_pos mem_cons_self]
      · rw [lookup_erase_ne hid, if_neg]
        rw [mem_cons]
        exact not_or.mpr ⟨hid, hmem⟩

/-- Without the nodes that are gone it is the tree of the shorter window. -/
theorem Shrink.rep {c : RvtConfig} {w : RvtWindow} {h : w.first < w.last} {orig top : ℕ}
    (S : Shrink c w h orig top t f) :
    Rep c (w.pop h) top { t with
      idToNode := t.nodeIdsToErase.foldl (fun m id => m.erase id) t.idToNode
      nodeIdsToErase := [] } := by
  refine ⟨S.one_le, S.covers, ⟨?_, ?_, ?_, fun _ _ _ => rfl⟩, S.root, S.rightmost, S.leftmost, rfl⟩
  · intro l j hP
    rw [lookup_foldl_erase, if_neg, S.nodes.lookup l j (.inl hP), S.node_eq l j hP]
    rw [S.erase]
    rintro ⟨l', j', hgone, heq⟩
    obtain ⟨rfl, rfl⟩ := RvtConfig.idAt_inj (S.nodes.inRange _ _ (.inl hP))
      (S.nodes.inRange _ _ (.inr hgone)) heq
    obtain ⟨hl, h1 : block c.K _ (w.first + 1) ≤ _, -⟩ := hP
    rcases hgone with ⟨-, -, hcarry, rfl⟩ | ⟨h2, -⟩
    · rw [hcarry.block_succ_index] at h1
      omega
    · omega
  · intro id hmem
    rw [← lookup_isSome, lookup_foldl_erase] at hmem
    by_cases hid : id ∈ t.nodeIdsToErase
    · rw [if_pos hid] at hmem
      exact absurd hmem Bool.false_ne_true
    · rw [if_neg hid, lookup_isSome] at hmem
      obtain ⟨l, j, hP | hgone, heq⟩ := S.nodes.only id hmem
      · exact ⟨l, j, hP, heq⟩
      · exact absurd ((S.erase id).2 ⟨l, j, hgone, heq⟩) hid
  · intro l j hP
    exact S.nodes.inRange l j (.inl hP)

/-! ## The whole removal -/

/-- A root of level 1 without children makes way for the empty tree. -/
theorem RangeValidationTree.removeAndUpdateInternalNodes_root {c : RvtConfig}
    {t : RangeValidationTree} (node : RVTNode) (hroot : t.root = some node.id)
    (hlookup : t.idToNode.lookup node.id = some node) (hempty : node.childIds = [])
    (hlevel : level node.id = 1) (value : ℤ) :
    t.removeAndUpdateInternalNodes c node.id value = .ok empty := by
  have hderef : t.derefRoot = .ok node := by
    unfold derefRoot deref
    rw [hroot]
    dsimp only
    rw [hlookup]
  have hderef' : (t.write (node.subtractValue c value)).derefRoot =
      .ok (node.subtractValue c value) := by
    unfold derefRoot deref
    rw [write_root, hroot]
    dsimp only
    rw [write_idToNode, show (node.subtractValue c value).id = node.id from rfl, lookup_insert]
  have hlevel' : level (node.subtractValue c value).id = 1 := hlevel
  unfold removeAndUpdateInternalNodes
  rw [trimLoop, if_pos hroot, pure_eq_ok, ok_bind, hderef, ok_bind, hempty]
  dsimp only [isEmpty_nil, setNewRoot]
  rw [if_pos rfl, hderef', ok_bind, ensure_decide hlevel']
  rfl

namespace Rep

variable {c : RvtConfig} {w : RvtWindow} {top : ℕ} {t : RangeValidationTree}

open RangeValidationTree RvtWindow

theorem openForRemoval_eq (R : Rep c w top t) :
    t.openForRemoval 1 = .ok (some (c.idAt 1 (block c.K 1 w.first))) := by
  unfold openForRemoval
  rw [checkLevel_of_lt (by decide), ok_bind, R.leftmost, if_pos ⟨le_rfl, R.one_le⟩, pure_eq_ok]

theorem deref_first (R : Rep c w top t) :
    t.deref (c.idAt 1 (block c.K 1 w.first)) = .ok (w.node c top 1 (block c.K 1 w.first)) :=
  deref_eq R.nodes (present_first ⟨le_rfl, R.one_le⟩)

/-- The part of `removeRVBNode` before the child leaves the first node. -/
theorem takeOut_first (R : Rep c w top t) (h : w.first < w.last) :
    ∃ t' f', (∀ g : RangeValidationTree → Exec RangeValidationTree, (do
        let t ← if (w.node c top 1 (block c.K 1 w.first)).childIds.length = 1 then do
            let t ← t.updateOpenRvtNodeArrays c .checkRemoveNode (c.idAt 1 (block c.K 1 w.first))
            let t := { t with
              nodeIdsToErase := t.nodeIdsToErase.insert (c.idAt 1 (block c.K 1 w.first)) }
            let parent ← t.parentNode (w.node c top 1 (block c.K 1 w.first))
            t.addValueToInternalNodes c (parent.map RVTNode.id)
              (NodeVal.setNegative (w.node c top 1 (block c.K 1 w.first)).initialValue)
          else pure t
        g t) = g t') ∧ Trim c w h top 1 0 2 t' f' ∧ SameBounds t t' ∧
      f' 1 (block c.K 1 w.first) = w.node c top 1 (block c.K 1 w.first) := by
  have T := R.trim h
  have hchild : (w.node c top 1 (block c.K 1 w.first)).childIds =
      c.idAt 0 (block c.K 0 w.first) :: (w.pop h).childIds c 0 (block c.K 1 w.first) :=
    childIds_pop h (carries_zero _ _)
  have hiff : (w.node c top 1 (block c.K 1 w.first)).childIds.length = 1 ↔
      Carries c.K 1 w.first := by
    have hnil : (w.pop h).childIds c 0 (block c.K 1 w.first) = [] ↔ Carries c.K 1 w.first :=
      childIds_pop_eq_nil_iff h 0
    rw [hchild, length_cons, ← hnil, ← length_eq_zero_iff]
    omega
  by_cases hcarry : Carries c.K 1 w.first
  · obtain ⟨harrays, t₂, f₂, hrun, T₂, hbounds, hkeep⟩ := T.takeOut_eq R.one_le hcarry
    have hlt := T.lt_top_of_carries R.one_le hcarry
    have hparent : { t with
        nodeIdsToErase := t.nodeIdsToErase.insert (c.idAt 1 (block c.K 1 w.first))
        leftmostRvtNode := update t.leftmostRvtNode 1
          (some (c.idAt 1 (block c.K 1 w.first + 1))) }.parentNode
          (w.node c top 1 (block c.K 1 w.first)) =
        .ok (some (w.node c top 2 (block c.K 2 w.first))) := by
      unfold parentNode
      dsimp only
      rw [if_neg (R.not_root le_rfl hlt le_rfl h.le), R.parentId_node le_rfl hlt le_rfl h.le,
        R.nodes.lookup 2 _ (present_first ⟨by omega, hlt⟩)]
    refine ⟨t₂, f₂, fun g => ?_, T₂, hbounds, hkeep _⟩
    rw [if_pos (hiff.2 hcarry), harrays, ok_bind]
    dsimp only
    rw [hparent, ok_bind]
    exact congrArg (· >>= g) hrun
  · refine ⟨t, _, fun g => ?_, T.takeOut_of_not le_rfl hcarry, SameBounds.refl t, rfl⟩
    rw [if_neg fun hlen => hcarry (hiff.1 hlen), pure_eq_ok, ok_bind]

/-- **Removing the first index** leaves the tree of the shorter window and nodes to erase. -/
theorem removeRVBNode_eq (R : Rep c w (w.rootLevel c) t) (h : w.first < w.last)
    (hmod : (w.pop h).rootLevel c < w.rootLevel c → c.K ^ w.rootLevel c % 2 ^ 56 ≠ 0) :
    ∃ t' f', t.removeRVBNode c ⟨c.idAt 0 w.first, w.leaf w.first⟩ = .ok t' ∧
      Shrink c w h (w.rootLevel c) ((w.pop h).rootLevel c) t' f' ∧ SameBounds t t' := by
  obtain ⟨t₁, f₁, hout, T₁, hbounds₁, hfirst⟩ := R.takeOut_first h
  obtain ⟨node, f₂, hpop, hid, T₂, -⟩ := T₁.pop_eq le_rfl R.one_le (carries_zero _ _)
  have hlevel := R.fits.level_lt
  have hfuel : w.rootLevel c - 1 < kMaxLevels + 1 := by
    unfold kMaxLevels
    omega
  obtain ⟨t₃, f₃, k, hloop, T₃, hk, hbounds₃⟩ :=
    T₂.trimLoop_eq R.one_le (.inr ⟨rfl, rfl⟩) hfuel
  obtain ⟨f₄, T₄⟩ := T₃.finish le_rfl le_rfl hk.1 hk.2
  have S := T₄.shrink R.one_le hk.1 hk.2
  have hfuel' : w.rootLevel c ≤ kMaxLevels + 1 := by
    unfold kMaxLevels
    omega
  obtain ⟨t₅, f₅, hshrink, S₅, hbounds₅⟩ := S.shrinkLoop_eq hmod hfuel'
  have hempty : ¬ (f₃ (w.rootLevel c) (block c.K (w.rootLevel c) w.first)).childIds.isEmpty := by
    rw [T₃.isEmpty_childIds_iff le_rfl]
    exact T₃.not_carries_top
  have hroot := derefRoot_eq T₃.nodes (T₃.present le_rfl le_rfl) T₃.root
  rw [zero_add, hfirst, block_zero] at hpop
  unfold removeRVBNode
  rw [R.openForRemoval_eq, ok_bind]
  dsimp only
  rw [R.deref_first, ok_bind]
  refine ⟨t₅, f₅, ?_, S₅, (hbounds₁.trans hbounds₃).trans hbounds₅⟩
  refine (hout fun t => (w.node c (w.rootLevel c) 1 (block c.K 1 w.first)).popChildId
    (c.idAt 0 w.first) >>= fun node => removeAndUpdateInternalNodes c (t.write node)
      (c.idAt 1 (block c.K 1 w.first)) (w.leaf w.first)).trans ?_
  rw [hpop, ok_bind]
  unfold removeAndUpdateInternalNodes
  rw [hloop, ok_bind, hroot, ok_bind, if_neg hempty]
  exact hshrink

theorem removeRVBNode_single (R : Rep c w (w.rootLevel c) t) (h : w.first = w.last) :
    t.removeRVBNode c ⟨c.idAt 0 w.first, w.leaf w.first⟩ = .ok empty := by
  have hone : w.rootLevel c = 1 := rootLevel_eq le_rfl (by rw [h]) fun l h1 h2 => by omega
  rw [hone] at R
  have hlast : block c.K 1 w.last = block c.K 1 w.first := by rw [h]
  have hr : c.InRange 1 (block c.K 1 w.first) :=
    R.nodes.inRange _ _ (present_first ⟨le_rfl, le_rfl⟩)
  have hchild : (w.node c 1 1 (block c.K 1 w.first)).childIds = [c.idAt 0 w.first] := by
    show w.childIds c 0 (block c.K 1 w.first) = _
    unfold childIds
    rw [firstChild_first, ← hlast, endChild_last, block_zero, block_zero, h,
      List.Ico.succ_singleton]
    rfl
  have hroot : t.root = some (c.idAt 1 (block c.K 1 w.first)) := R.root
  have hleft : t.leftmostRvtNode 1 = some (c.idAt 1 (block c.K 1 w.first)) := by
    rw [R.leftmost, if_pos ⟨le_rfl, le_rfl⟩]
  have hright : (t.rightmostRvtNode 1).isSome = true := by
    rw [R.rightmost, if_pos ⟨le_rfl, le_rfl⟩]
    rfl
  have hlen : (w.node c 1 1 (block c.K 1 w.first)).childIds.length = 1 := by
    rw [hchild]
    rfl
  have hpop : (w.node c 1 1 (block c.K 1 w.first)).popChildId (c.idAt 0 w.first) =
      .ok { w.node c 1 1 (block c.K 1 w.first) with childIds := [] } := by
    unfold RVTNode.popChildId
    rw [hchild]
    dsimp only
    rw [ensure_decide rfl, pure_eq_ok]
  unfold removeRVBNode
  rw [R.openForRemoval_eq, ok_bind]
  dsimp only
  rw [R.deref_first, ok_bind, if_pos hlen, updateOpenRvtNodeArrays_remove hr hleft hright, ok_bind]
  dsimp only
  unfold parentNode
  rw [node_id, if_pos hroot, ok_bind]
  dsimp only [Option.map_none, addValueToInternalNodes]
  rw [ok_bind, hpop, ok_bind]
  apply removeAndUpdateInternalNodes_root
    { w.node c 1 1 (block c.K 1 w.first) with childIds := [] }
  · exact hroot
  · exact lookup_insert _
  · rfl
  · exact hr.level_idAt

end Rep

end ConcordBft
