import ConcordBft.RangeTree.Tree
import ConcordBft.Lib.Kary
import Mathlib.Data.Int.ModEq
import Mathlib.Data.List.Intervals

/-!
# Where the nodes are

The node of level `l` over block `j` of `RVT_K ^ l` indexes has the id `idAt l j`. As long as the
first index of the block has 56 bits and the span of the block 64 (`InRange`) the arithmetic on ids
is exact, and different blocks have different ids. `Holds` says which blocks a map has nodes for
and what they contain; the
operations of the tree are described by how they change it.
-/

namespace ConcordBft

open Verif Verif.Exec Verif.Kary Nat NodeInfo RVTNode Int

/-! ## Arithmetic of 64 bits -/

theorem sub64_of_le {x y : ℕ} (hy : y ≤ x) (hx : x < 2 ^ 64) : sub64 x y = x - y := by
  unfold sub64
  rw [show x + 2 ^ 64 - y = x - y + 2 ^ 64 by omega, add_mod_right, mod_eq_of_lt (by omega)]

theorem foldl_mul_mod (base n x : ℕ) (hx : x < 2 ^ 64) :
    (List.range n).foldl (fun res _ => res * base % 2 ^ 64) x = x * base ^ n % 2 ^ 64 := by
  induction n with
  | zero => rw [List.range_zero, List.foldl_nil, pow_zero, mul_one, mod_eq_of_lt hx]
  | succ n ih =>
    rw [List.range_succ, List.foldl_append, ih, List.foldl_cons, List.foldl_nil, pow_succ base,
      ← mul_assoc, mod_mul_mod]

theorem powUint_eq {base exp : ℕ} (hbase : 0 < base) (h : base ^ exp < 2 ^ 64) :
    powUint base exp = base ^ exp := by
  unfold powUint
  rw [if_neg (by omega)]
  split_ifs with hexp
  · rw [hexp, pow_zero]
  · obtain ⟨n, rfl⟩ := exists_eq_succ_of_ne_zero hexp
    have hlt : base < 2 ^ 64 :=
      lt_of_le_of_lt (le_self_pow (succ_ne_zero n) base) h
    rw [succ_sub_one, foldl_mul_mod _ _ _ hlt, ← pow_succ', mod_eq_of_lt h]

namespace NodeInfo

theorem level_id {l i : ℕ} (hl : l < 2 ^ 8) : level (id l i) = l := by
  unfold level id
  rw [mod_eq_of_lt hl]
  omega

theorem rvbIndex_id {l i : ℕ} (hi : i < 2 ^ 56) : rvbIndex (id l i) = i := by
  unfold rvbIndex id
  omega

end NodeInfo

/-! ## Values -/

namespace NodeVal

variable {c : RvtConfig} {x v : ℤ}

theorem modulo_pos : 0 < c.nodeValueModulo := by
  unfold RvtConfig.nodeValueModulo
  exact Int.pow_pos (by decide)

theorem tmod_emod (x : ℤ) :
    x.tmod c.nodeValueModulo % c.nodeValueModulo = x % c.nodeValueModulo := by
  rw [tmod_def, sub_mul_emod_self_left]

theorem add_of_nonneg (hx : 0 ≤ x) (hv : 0 ≤ v) : add c x v = (x + v) % c.nodeValueModulo := by
  unfold add
  exact tmod_eq_emod_of_nonneg (by omega)

theorem add_modEq (x v : ℤ) : add c x v ≡ x + v [ZMOD c.nodeValueModulo] := tmod_emod (x + v)

theorem sub_eq (x v : ℤ) : sub c x v = (x - v) % c.nodeValueModulo := by
  have hmod : (c.nodeValueModulo + x - v).tmod c.nodeValueModulo % c.nodeValueModulo =
      (x - v) % c.nodeValueModulo := by
    rw [tmod_emod, show c.nodeValueModulo + x - v = x - v + c.nodeValueModulo by ring,
      add_emod_right]
  have hlt := tmod_lt_of_pos (c.nodeValueModulo + x - v) (modulo_pos (c := c))
  unfold sub toPositive
  split_ifs with hneg
  · exact hmod
  · rw [← hmod, emod_eq_of_lt (by omega) hlt]

theorem setNegative_of_nonneg (hx : 0 ≤ x) : setNegative x = -x := by
  unfold setNegative
  rw [abs_of_nonneg hx]

theorem ofBytes_nonneg (bytes : List UInt8) : 0 ≤ ofBytes c bytes := by
  unfold ofBytes
  exact tmod_nonneg _ (natCast_nonneg _)

end NodeVal

/-! ## Ids of blocks -/

namespace RvtConfig

variable (c : RvtConfig)

/-- The id of the node over block `j` of level `l`. -/
def idAt (l j : ℕ) : ℕ := NodeInfo.id l (j * c.K ^ l + 1)

/-- The first index of the block and its span fit their fields. -/
def InRange (l j : ℕ) : Prop := j * c.K ^ l + 1 < 2 ^ 56 ∧ c.K ^ l < 2 ^ 64

/-- The initial value of the node over block `j` of level `l`. -/
def initialValueAt (l j : ℕ) : ℤ :=
  NodeVal.ofBytes c (c.digest (le64 (c.idAt l j) ++ initialValueZeroData))

/-- The node over block `j` of level `l` as it is constructed. -/
def born (l j : ℕ) : RVTNode :=
  ⟨c.idAt l j, c.initialValueAt l j, 0, [], RVTNode.kInsertionCounterNotInitialized,
    c.initialValueAt l j⟩

variable {c} {l j : ℕ}

theorem two_le_K : 2 ≤ c.K := c.two_le_rvtK

theorem K_pos : 0 < c.K := lt_of_lt_of_le (by decide) c.two_le_rvtK

theorem K_lt : c.K < 2 ^ 32 := c.rvtK.toNat_lt

theorem initialValueAt_nonneg (l j : ℕ) : 0 ≤ c.initialValueAt l j := NodeVal.ofBytes_nonneg _

theorem pow_pos : 0 < c.K ^ l := Nat.pow_pos K_pos

section

variable (h : c.InRange l j)

include h

theorem InRange.index_lt : j * c.K ^ l + 1 < 2 ^ 56 := h.1

theorem InRange.pow_lt : c.K ^ l < 2 ^ 64 := h.2

theorem InRange.level_lt : l < 64 := by
  have h2 : 2 ^ l ≤ c.K ^ l := Nat.pow_le_pow_left two_le_K l
  exact (Nat.pow_lt_pow_iff_right (by decide)).1 (Nat.lt_of_le_of_lt h2 h.pow_lt)

theorem InRange.mono {j' : ℕ} (hle : j' ≤ j) : c.InRange l j' := by
  have hmul := mul_le_mul_right (c.K ^ l) hle
  have hindex := h.index_lt
  exact ⟨by omega, h.pow_lt⟩

theorem InRange.powUint_eq : powUint c.K l = c.K ^ l :=
  ConcordBft.powUint_eq K_pos h.pow_lt

@[simp] theorem InRange.level_idAt : level (c.idAt l j) = l := by
  have := h.level_lt
  exact level_id (by omega)

@[simp] theorem InRange.rvbIndex_idAt :
    rvbIndex (c.idAt l j) = j * c.K ^ l + 1 := rvbIndex_id h.index_lt

theorem InRange.idAt_pos : 0 < c.idAt l j := by
  have hindex := h.rvbIndex_idAt
  unfold rvbIndex at hindex
  omega

theorem idAt_inj {l' j' : ℕ} (h' : c.InRange l' j')
    (heq : c.idAt l j = c.idAt l' j') : l = l' ∧ j = j' := by
  have hl : l = l' := by rw [← h.level_idAt, ← h'.level_idAt, heq]
  subst hl
  refine ⟨rfl, ?_⟩
  have hindex := h'.rvbIndex_idAt
  rw [← heq, h.rvbIndex_idAt, add_right_cancel_iff] at hindex
  exact eq_of_mul_eq_mul_right pow_pos hindex

end

theorem idAt_lt {j' : ℕ} (h' : c.InRange l j') (hlt : j < j') : c.idAt l j < c.idAt l j' := by
  have h := h'.mono hlt.le
  have hmul := mul_lt_mul_of_pos_right hlt (pow_pos (c := c) (l := l))
  have h1 := h.index_lt
  have h2 := h'.index_lt
  unfold idAt NodeInfo.id
  rw [mod_eq_of_lt h1, mod_eq_of_lt h2]
  omega

/-! ## The index arithmetic of `NodeInfo` -/

theorem InRange.parentRvbIndexFromChild (h : c.InRange (l + 1) (j / c.K)) (hchild : c.InRange l j) :
    parentRvbIndexFromChild c (j * c.K ^ l + 1) l = .ok (j / c.K * c.K ^ (l + 1) + 1) := by
  have hj := hchild.index_lt
  have hp := h.index_lt
  have hdiv : j * c.K ^ l / c.K ^ (l + 1) = j / c.K := by
    rw [pow_succ, Nat.mul_comm (c.K ^ l), Nat.mul_div_mul_right _ _ pow_pos]
  unfold NodeInfo.parentRvbIndexFromChild
  rw [h.powUint_eq, if_neg (pow_pos (c := c) (l := l + 1)).ne', sub64_of_le (by omega) (by omega),
    Nat.add_sub_cancel, hdiv, Nat.mod_eq_of_lt (by omega)]

theorem InRange.nextRvbIndex (h : c.InRange l j) :
    nextRvbIndex c (j * c.K ^ l + 1) l = .ok (((j + 1) * c.K ^ l + 1) % 2 ^ 64) := by
  have hj := h.index_lt
  have hnext : j * c.K ^ l + 1 + c.K ^ l = (j + 1) * c.K ^ l + 1 := by ring
  unfold NodeInfo.nextRvbIndex
  rw [h.powUint_eq, if_neg (pow_pos (c := c) (l := l)).ne', sub64_of_le (by omega) (by omega),
    Nat.add_sub_cancel, Nat.mul_mod_left, ensure_decide rfl, hnext, pure_eq_ok]

theorem InRange.computeNodeInitialValue (h : c.InRange l j) (data : List UInt8) :
    computeNodeInitialValue c (c.idAt l j) data =
      .ok (NodeVal.ofBytes c (c.digest (le64 (c.idAt l j) ++ data))) := by
  unfold ConcordBft.computeNodeInitialValue
  rw [ensure_decide h.idAt_pos, pure_eq_ok]

theorem InRange.new (h : c.InRange (l + 1) (j / c.K)) (hchild : c.InRange l j) :
    new c l (j * c.K ^ l + 1) = .ok (c.born (l + 1) (j / c.K)) := by
  have hl := h.level_lt
  have hlevel : (l + 1) % 2 ^ 8 = l + 1 := mod_eq_of_lt (by omega)
  have hid : id (l + 1) (j / c.K * c.K ^ (l + 1) + 1) = c.idAt (l + 1) (j / c.K) := by
    rw [idAt]
  have hmax : l + 1 ≤ kMaxLevels := by
    unfold kMaxLevels
    omega
  unfold RVTNode.new minPossibleSiblingRvbIndex
  rw [hlevel]
  dsimp only
  rw [Nat.add_sub_cancel, h.parentRvbIndexFromChild hchild, ok_bind, hid, h.computeNodeInitialValue,
    ok_bind, h.level_idAt, ensure_decide (show 1 ≤ l + 1 by omega), ensure_decide hmax, pure_eq_ok,
    born, initialValueAt]

variable {node : RVTNode}

/-- The first push fixes the counter by the position of the child. -/
theorem InRange.pushChildId_first (h : c.InRange (l + 1) (j / c.K)) (hchild : c.InRange l j)
    (hempty : node.childIds = [])
    (hcounter : node.insertionCounter = kInsertionCounterNotInitialized) :
    node.pushChildId c (c.idAt l j) = .ok { node with
        childIds := [c.idAt l j]
        insertionCounter := j - j / c.K * c.K + 1 } := by
  have hmin := h.parentRvbIndexFromChild hchild
  have hle : j / c.K * c.K ≤ j := div_mul_le_self j c.K
  have hlt : j - j / c.K * c.K < c.K := by
    have := lt_mul_div_succ j (K_pos (c := c))
    rw [mul_add, mul_comm, mul_one] at this
    omega
  have hdiv : (j * c.K ^ l + 1 - (j / c.K * c.K ^ (l + 1) + 1)) / c.K ^ l = j - j / c.K * c.K := by
    rw [Nat.add_sub_add_right, pow_succ', ← Nat.mul_assoc, ← Nat.sub_mul,
      Nat.mul_div_cancel _ pow_pos]
  have hindex := hchild.index_lt
  have hparent : j / c.K * c.K ^ (l + 1) ≤ j * c.K ^ l := by
    rw [pow_succ', ← Nat.mul_assoc]
    exact Nat.mul_le_mul_right _ hle
  have hpush : node.counterForPush c (c.idAt l j) = .ok (j - j / c.K * c.K) := by
    unfold counterForPush minPossibleSiblingRvbIndex
    rw [if_pos hcounter, hchild.rvbIndex_idAt, hchild.level_idAt, hmin, ok_bind,
      hchild.powUint_eq, if_neg (pow_pos (c := c) (l := l)).ne',
      sub64_of_le (by omega) (by omega), hdiv, pure_eq_ok]
  unfold pushChildId
  rw [hempty, hpush, ok_bind, decide_eq_true hlt]
  rfl

theorem pushChildId_next {id : ℕ}
    (hlast : ∀ last ∈ node.childIds.getLast?, last < id) (hlt : node.insertionCounter < c.K) :
    node.pushChildId c id = .ok { node with
        childIds := node.childIds ++ [id]
        insertionCounter := node.insertionCounter + 1 } := by
  have hK := K_lt (c := c)
  have hcounter : node.counterForPush c id = .ok node.insertionCounter := by
    unfold counterForPush kInsertionCounterNotInitialized
    rw [if_neg (by omega), pure_eq_ok]
  have hall : (node.childIds.getLast?.all fun last => decide (last < id)) = true := by
    rcases hlast' : node.childIds.getLast? with _ | last
    · rfl
    · exact decide_eq_true (hlast last hlast')
  unfold pushChildId
  rw [hall, hcounter, ensure_true, ok_bind, ok_bind, ensure_decide hlt, pure_eq_ok]

theorem openForInsertion_iff (hle : node.insertionCounter ≤ c.K) :
    node.openForInsertion c = true ↔ node.insertionCounter < c.K := by
  have hK := K_lt (c := c)
  unfold openForInsertion
  rw [decide_eq_true_eq, sub64_of_le hle (by omega)]
  omega

end RvtConfig

/-! ## What a map of nodes holds -/

/-- The map has exactly the nodes of the blocks in `P`, with the contents `f`. -/
structure Holds (c : RvtConfig) (m : Finmap fun _ : ℕ => RVTNode) (P : ℕ → ℕ → Prop)
    (f : ℕ → ℕ → RVTNode) : Prop where
  lookup : ∀ l j, P l j → m.lookup (c.idAt l j) = some (f l j)
  only : ∀ id ∈ m, ∃ l j, P l j ∧ id = c.idAt l j
  inRange : ∀ l j, P l j → c.InRange l j
  id_eq : ∀ l j, P l j → (f l j).id = c.idAt l j

namespace Holds

variable {c : RvtConfig} {m : Finmap fun _ : ℕ => RVTNode} {P : ℕ → ℕ → Prop}
  {f : ℕ → ℕ → RVTNode} {l j : ℕ}

section

variable (H : Holds c m P f)

include H

theorem lookup_eq_none (hr : c.InRange l j) (hP : ¬ P l j) : m.lookup (c.idAt l j) = none := by
  rw [Finmap.lookup_eq_none]
  intro hmem
  obtain ⟨l', j', hP', heq⟩ := H.only _ hmem
  obtain ⟨rfl, rfl⟩ := RvtConfig.idAt_inj hr (H.inRange l' j' hP') heq
  exact hP hP'

theorem congr {Q : ℕ → ℕ → Prop} {g : ℕ → ℕ → RVTNode}
    (hPQ : ∀ l j, P l j ↔ Q l j) (hfg : ∀ l j, P l j → f l j = g l j) : Holds c m Q g where
  lookup l j hQ := by rw [H.lookup l j ((hPQ l j).2 hQ), hfg l j ((hPQ l j).2 hQ)]
  only id hid := by
    obtain ⟨l, j, hP, heq⟩ := H.only id hid
    exact ⟨l, j, (hPQ l j).1 hP, heq⟩
  inRange l j hQ := H.inRange l j ((hPQ l j).2 hQ)
  id_eq l j hQ := by rw [← hfg l j ((hPQ l j).2 hQ), H.id_eq l j ((hPQ l j).2 hQ)]

theorem of_iff {Q : ℕ → ℕ → Prop} (hPQ : ∀ l j, P l j ↔ Q l j) : Holds c m Q f :=
  H.congr hPQ fun _ _ _ => rfl

theorem insert (hr : c.InRange l j) (node : RVTNode) (hid : node.id = c.idAt l j) :
    Holds c (m.insert node.id node) (fun l' j' => P l' j' ∨ (l' = l ∧ j' = j))
      (fun l' j' => if l' = l ∧ j' = j then node else f l' j') where
  lookup l' j' hP := by
    split_ifs with heq
    · rw [heq.1, heq.2, ← hid, Finmap.lookup_insert]
    · have hP' : P l' j' := hP.resolve_right heq
      rw [Finmap.lookup_insert_of_ne, H.lookup l' j' hP']
      intro hids
      rw [hid] at hids
      exact heq (RvtConfig.idAt_inj (H.inRange l' j' hP') hr hids)
  only id hmem := by
    rcases Finmap.mem_insert.mp hmem with h | h
    · exact ⟨l, j, .inr ⟨rfl, rfl⟩, by rw [h, hid]⟩
    · obtain ⟨l', j', hP, heq⟩ := H.only id h
      exact ⟨l', j', .inl hP, heq⟩
  inRange l' j' hP := by
    rcases hP with hP | ⟨rfl, rfl⟩
    · exact H.inRange l' j' hP
    · exact hr
  id_eq l' j' hP := by
    split_ifs with heq
    · rw [heq.1, heq.2, hid]
    · rw [H.id_eq l' j' (hP.resolve_right heq)]

theorem insert_congr (node : RVTNode) {Q : ℕ → ℕ → Prop} {g : ℕ → ℕ → RVTNode} (hr : c.InRange l j)
    (hid : node.id = c.idAt l j) (hPQ : ∀ l' j', P l' j' ∨ (l' = l ∧ j' = j) ↔ Q l' j')
    (hnode : g l j = node) (hfg : ∀ l' j', P l' j' → ¬ (l' = l ∧ j' = j) → f l' j' = g l' j') :
    Holds c (m.insert node.id node) Q g := by
  refine (H.insert hr node hid).congr hPQ fun l' j' hP => ?_
  split_ifs with heq
  · rw [heq.1, heq.2, hnode]
  · rw [hfg l' j' (hP.resolve_right heq) heq]

theorem set_congr (node : RVTNode) {g : ℕ → ℕ → RVTNode} (hP : P l j) (hid : node.id = c.idAt l j)
    (hnode : g l j = node) (hfg : ∀ l' j', P l' j' → ¬ (l' = l ∧ j' = j) → f l' j' = g l' j') :
    Holds c (m.insert node.id node) P g := by
  refine H.insert_congr node (H.inRange l j hP) hid (fun l' j' => ⟨?_, .inl⟩) hnode hfg
  rintro (h | ⟨rfl, rfl⟩)
  · exact h
  · exact hP

theorem set (hP : P l j) (node : RVTNode) (hid : node.id = c.idAt l j) :
    Holds c (m.insert node.id node) P (fun l' j' => if l' = l ∧ j' = j then node else f l' j') :=
  H.set_congr node hP hid (if_pos ⟨rfl, rfl⟩) fun _ _ _ h => (if_neg h).symm

theorem unique {m' : Finmap fun _ : ℕ => RVTNode} (H' : Holds c m' P f) : m = m' := by
  apply Finmap.ext_lookup
  intro id
  by_cases hmem : id ∈ m
  · obtain ⟨l, j, hP, rfl⟩ := H.only id hmem
    rw [H.lookup l j hP, H'.lookup l j hP]
  · have hmem' : id ∉ m' := by
      intro h
      obtain ⟨l, j, hP, rfl⟩ := H'.only id h
      exact hmem (Finmap.mem_of_lookup_eq_some (H.lookup l j hP))
    rw [Finmap.lookup_eq_none.mpr hmem, Finmap.lookup_eq_none.mpr hmem']

end

end Holds

end ConcordBft
