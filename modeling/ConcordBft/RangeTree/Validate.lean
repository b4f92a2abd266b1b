import ConcordBft.RangeTree.History
import Mathlib.Algebra.BigOperators.ModEq

/-!
# Validation of a tree

`validate` checks the shape of the tree along the paths from the first group of level 1 to the root,
and the values of the nodes above level 1. It meets the nodes of the map by their ids, but the order
makes no difference and is a parameter. The tree of a range passes (`Represents.validate_eq`).
-/

namespace ConcordBft

open Verif Verif.Exec Verif.Kary List.Ico NodeVal List RvtConfig

namespace RangeValidationTree

variable (c : RvtConfig) (t : RangeValidationTree)

def totalLevels : ℕ := (t.root.map NodeInfo.level).getD 0

variable (node : RVTNode)

/-- `getRVTNodeByType(node, RIGHT_SIBLING)`. -/
def rightSibling : Exec (Option RVTNode) :=
  if t.root = some node.id then .ok none
  else
    match t.idToNode.lookup node.parentId with
    | none => .error .assertion
    | some parent => do
      ensure !parent.childIds.isEmpty
      if parent.childIds.length = 1 then return none
      else
        ensure (decide (node.id ∈ parent.childIds))
        match parent.childIds[parent.childIds.idxOf node.id + 1]? with
        | none => return none
        | some id =>
          ensure (decide (id ≠ 0))
          return some (← t.deref id)

/-- The checks of `validateTreeStructure` for a node below the root. -/
def checkNode : Exec Bool := do
  let rvbIndex := NodeInfo.rvbIndex node.id
  let level := NodeInfo.level node.id
  if (← NodeInfo.maxPossibleSiblingRvbIndex c rvbIndex level) < rvbIndex then return false
  else if rvbIndex < (← NodeInfo.minPossibleSiblingRvbIndex c rvbIndex level) then return false
  else
    match ← t.rightSibling node with
    | none => return true
    | some sibling =>
      return decide (NodeInfo.rvbIndex sibling.id = (← NodeInfo.nextRvbIndex c rvbIndex level))

/-- The way from a node to the root; `steps` levels are left above the node. -/
def checkPath : ℕ → RVTNode → Exec Bool
  | 0, node => do
    let parent ← t.parentNode node
    if parent.isSome ∨ node.parentId ≠ 0 then return false else return true
  | steps + 1, node => do
    match ← t.parentNode node with
    | none => return false
    | some parent => if ← t.checkNode c node then checkPath steps parent else return false

/-- The nodes of level 1 from `node` on that are children of its parent. -/
def checkSiblings : ℕ → RVTNode → Exec Bool
  | 0, _ => .error .access
  | fuel + 1, node => do
    if t.maxRvbIndex < NodeInfo.rvbIndex node.id then return false
    else if ← t.checkPath c (t.totalLevels - 1) node then
      match ← t.rightSibling node with
      | none => return true
      | some sibling => checkSiblings fuel sibling
    else return false

/-- The arrays below the root. -/
def checkArrays (level : ℕ) : Bool :=
  match t.leftmostRvtNode level, t.rightmostRvtNode level with
  | some leftmost, some rightmost =>
    (t.idToNode.lookup leftmost).isSome && decide (NodeInfo.level leftmost = level) &&
      decide (leftmost ≤ rightmost)
  | _, _ => false

/-- The arrays above the root. -/
def checkCleared (level : ℕ) : Bool :=
  (t.leftmostRvtNode level).isNone && (t.rightmostRvtNode level).isNone

def validateTreeStructure : Exec Bool :=
  if t.root.isSome ∧ t.idToNode = ∅ then .ok false
  else if t.root.isNone ∧ t.idToNode ≠ ∅ then .ok false
  else if t.root.isNone then .ok true
  else do
    let root ← t.derefRoot
    if NodeInfo.kMaxLevels < t.totalLevels then return false
    else if 1 < t.totalLevels ∧ root.childIds.length = 1 then return false
    else if !(List.Ico 1 t.totalLevels).all t.checkArrays then return false
    else if !(List.Ico (t.totalLevels + 1) NodeInfo.kMaxLevels).all t.checkCleared then
      return false
    else if 1 < t.totalLevels then
      match t.leftmostRvtNode 1 with
      | none => .error .access
      | some id =>
        let node ← t.deref id
        t.checkSiblings c c.K node
    else return true

def sumOfChilds : Exec ℤ :=
  node.childIds.foldlM (fun sum id =>
    match t.idToNode.lookup id with
    | none => .error .assertion
    | some child => .ok (add c sum child.currentValue)) 0

def checkValue : Exec Bool :=
  if NodeInfo.level node.id ≤ 1 then .ok true
  else do
    ensure !node.childIds.isEmpty
    let sum ← t.sumOfChilds c node
    return decide (sub c node.currentValue node.initialValue = sum)

/-- The loop of `validateTreeValues` over the nodes of the map. -/
def checkValues : List ℕ → Exec Bool
  | [] => .ok true
  | id :: ids => do
    let node ← t.deref id
    if ← t.checkValue c node then checkValues ids else return false

/-- `order` lists the keys of the map as the iteration meets them. -/
def validateTreeValues (order : List ℕ) : Exec Bool :=
  if t.root.isNone ∧ t.idToNode = ∅ then .ok true
  else if t.totalLevels ≤ 1 then .ok true
  else do
    if ← t.checkValues c order then
      ensure (decide (order.toFinset.card = t.idToNode.keys.card))
      ensure (decide (order.toFinset = t.idToNode.keys))
      return true
    else return false

def validate (order : List ℕ) : Exec Bool := do
  if ← t.validateTreeStructure c then t.validateTreeValues c order else return false

end RangeValidationTree

namespace RvtWindow

variable {c : RvtConfig} {w : RvtWindow} {top l j : ℕ}

theorem exists_block_eq (h : Meets c.K w.first w.last l j) :
    ∃ x, w.first ≤ x ∧ x ≤ w.last ∧ block c.K l x = j := by
  have hpos := pow_pos (c := c) (l := l)
  refine ⟨max w.first (j * c.K ^ l), le_max_left _ _, max_le w.le ?_, ?_⟩
  · exact (Nat.le_div_iff_mul_le hpos).mp h.2
  · rcases le_total w.first (j * c.K ^ l) with hle | hle
    · rw [max_eq_right hle]
      exact Nat.mul_div_cancel _ hpos
    · rw [max_eq_left hle]
      exact le_antisymm h.1 ((Nat.le_div_iff_mul_le hpos).mpr hle)

theorem mem_children {x : ℕ} (h1 : w.first ≤ x) (h2 : x ≤ w.last) (l : ℕ) :
    w.firstChild c l (block c.K (l + 1) x) ≤ block c.K l x ∧
      block c.K l x < w.endChild c l (block c.K (l + 1) x) := by
  have h3 := block_sub_lt (RvtConfig.K_pos (c := c)) l x
  have h4 := block_mono c.K l h1
  have h5 := block_mono c.K l h2
  unfold firstChild endChild
  omega

theorem length_childIds (w : RvtWindow) (l j : ℕ) :
    (w.childIds c l j).length = w.endChild c l j - w.firstChild c l j := by
  unfold childIds
  rw [length_map, Ico.length]

theorem getElem?_childIds (w : RvtWindow) (l j i : ℕ) : (w.childIds c l j)[i]? =
      if w.firstChild c l j + i < w.endChild c l j then some (c.idAt l (w.firstChild c l j + i))
      else none := by
  unfold childIds List.Ico
  rw [getElem?_map]
  by_cases hi : i < w.endChild c l j - w.firstChild c l j
  · rw [getElem?_range' hi, if_pos (by omega), Nat.one_mul]
    rfl
  · rw [getElem?_eq_none (by rw [length_range']; omega), if_neg (by omega)]
    rfl

theorem idxOf_childIds {p : ℕ} (hr : ∀ q, q < w.endChild c l j → c.InRange l q)
    (h1 : w.firstChild c l j ≤ p) (h2 : p < w.endChild c l j) :
    (w.childIds c l j).idxOf (c.idAt l p) = p - w.firstChild c l j := by
  have hnodup : (w.childIds c l j).Nodup := by
    refine List.Nodup.map_on ?_ (nodup _ _)
    intro a ha b hb heq
    exact (idAt_inj (hr a (mem.mp ha).2) (hr b (mem.mp hb).2) heq).2
  have hlt : p - w.firstChild c l j < (w.childIds c l j).length := by
    rw [length_childIds]
    omega
  have hget := getElem?_childIds (c := c) w l j (p - w.firstChild c l j)
  rw [if_pos (by omega), getElem?_eq_getElem hlt, Option.some.injEq,
    show w.firstChild c l j + (p - w.firstChild c l j) = p by omega] at hget
  rw [← hget]
  exact hnodup.idxOf_getElem _ hlt

end RvtWindow

namespace Rep

variable {c : RvtConfig} {w : RvtWindow} {top l x : ℕ} {t : RangeValidationTree}

open RangeValidationTree RvtWindow

theorem present_block (h1 : w.first ≤ x) (h2 : x ≤ w.last) (hl : 1 ≤ l) (htop : l ≤ top) :
    w.Present c top l (block c.K l x) := ⟨⟨hl, htop⟩, block_mono c.K l h1, block_mono c.K l h2⟩

section

variable (R : Rep c w top t)

include R

section

variable (h1 : w.first ≤ x) (h2 : x ≤ w.last) (hl : 1 ≤ l)

include h1 h2 hl

theorem rightSibling_eq (htop : l < top) :
    t.rightSibling (w.node c top l (block c.K l x)) =
      .ok (if block c.K l x + 1 < w.endChild c l (block c.K (l + 1) x) then
        some (w.node c top l (block c.K l x + 1)) else none) := by
  have hmem := present_block (c := c) h1 h2 hl htop.le
  have hmem' := present_block (c := c) (l := l + 1) h1 h2 (by omega) htop
  have hchild := mem_children (c := c) h1 h2 l
  have hrange : ∀ q, q < w.endChild c l (block c.K (l + 1) x) → c.InRange l q := by
    intro q hq
    refine (R.nodes.inRange _ _ (present_last ⟨hl, htop.le⟩)).mono ?_
    unfold endChild at hq
    omega
  have hids : (w.node c top (l + 1) (block c.K (l + 1) x)).childIds =
      w.childIds c l (block c.K (l + 1) x) := rfl
  have hin : c.idAt l (block c.K l x) ∈ w.childIds c l (block c.K (l + 1) x) := by
    unfold childIds
    exact mem_map.mpr ⟨_, mem.mpr hchild, rfl⟩
  have hne : (w.childIds c l (block c.K (l + 1) x)).isEmpty = false := by
    rw [isEmpty_eq_false_iff]
    exact ne_nil_of_mem hin
  have hlen := length_childIds (c := c) w l (block c.K (l + 1) x)
  unfold rightSibling
  rw [if_neg (R.not_root hl htop h1 h2), R.parentId_node hl htop h1 h2, R.nodes.lookup _ _ hmem']
  dsimp only
  rw [hids, hne, Bool.not_false, ensure_true, ok_bind]
  by_cases hone : (w.childIds c l (block c.K (l + 1) x)).length = 1
  · rw [if_pos hone, if_neg (by omega), pure_eq_ok]
  · rw [if_neg hone, node_id, ensure_decide hin,
      idxOf_childIds hrange hchild.1 hchild.2, getElem?_childIds,
      show w.firstChild c l (block c.K (l + 1) x) +
        (block c.K l x - w.firstChild c l (block c.K (l + 1) x) + 1) = block c.K l x + 1 by omega]
    by_cases hnext : block c.K l x + 1 < w.endChild c l (block c.K (l + 1) x)
    · have hsib : w.Present c top l (block c.K l x + 1) := by
        refine ⟨⟨hl, htop.le⟩, le_trans hmem.2.1 (Nat.le_succ _), ?_⟩
        unfold endChild at hnext
        omega
      have hpos := (R.nodes.inRange _ _ hsib).idAt_pos
      rw [if_pos hnext, if_pos hnext]
      dsimp only
      rw [ensure_decide (show c.idAt l (block c.K l x + 1) ≠ 0 by omega),
        deref_eq R.nodes hsib, ok_bind, pure_eq_ok]
    · rw [if_neg hnext, if_neg hnext, pure_eq_ok]

theorem siblingBounds (htop : l < top) :
    ∃ min max, NodeInfo.minPossibleSiblingRvbIndex c (block c.K l x * c.K ^ l + 1) l = .ok min ∧
      NodeInfo.maxPossibleSiblingRvbIndex c (block c.K l x * c.K ^ l + 1) l = .ok max ∧
      min ≤ block c.K l x * c.K ^ l + 1 ∧ block c.K l x * c.K ^ l + 1 ≤ max := by
  have hr := R.nodes.inRange _ _ (present_block (c := c) h1 h2 hl htop.le)
  have hr' : c.InRange (l + 1) (block c.K l x / c.K) := by
    rw [block_div]
    exact R.nodes.inRange _ _ (present_block (c := c) h1 h2 (by omega) htop)
  have hmin : NodeInfo.minPossibleSiblingRvbIndex c (block c.K l x * c.K ^ l + 1) l =
      .ok (block c.K (l + 1) x * c.K ^ (l + 1) + 1) := by
    rw [← block_div]
    exact hr'.parentRvbIndexFromChild hr
  have hpos := block_sub_lt (RvtConfig.K_pos (c := c)) l x
  have hK := two_le_K (c := c)
  -- the span of the parent is either below the last index, or the parent is the first block
  have hlow : block c.K (l + 1) x * c.K ^ (l + 1) ≤ block c.K l x * c.K ^ l := by
    rw [pow_succ', ← Nat.mul_assoc]
    exact Nat.mul_le_mul_right _ hpos.1
  have hhigh : block c.K l x * c.K ^ l ≤
      block c.K (l + 1) x * c.K ^ (l + 1) + (c.K - 1) * c.K ^ l := by
    rw [pow_succ', ← Nat.mul_assoc, ← Nat.add_mul]
    refine Nat.mul_le_mul_right _ ?_
    have := hpos.2
    rw [Nat.add_mul, Nat.one_mul] at this
    omega
  have hnowrap : block c.K (l + 1) x * c.K ^ (l + 1) + 1 + (c.K - 1) * c.K ^ l < 2 ^ 64 := by
    have hindex := hr'.index_lt
    rw [block_div] at hindex
    have hpow := hr'.pow_lt
    have hspan : (c.K - 1) * c.K ^ l + c.K ^ l = c.K ^ (l + 1) := by
      rw [pow_succ', ← Nat.succ_mul, Nat.succ_eq_add_one, Nat.sub_add_cancel (by omega)]
    have hone := pow_pos (c := c) (l := l)
    have htwo : 2 ≤ c.K ^ l := le_trans hK (Nat.le_self_pow (by omega) _)
    rcases Nat.eq_zero_or_pos (block c.K (l + 1) x) with hzero | hpos'
    · rw [hzero, Nat.zero_mul]
      omega
    · have := Nat.le_mul_of_pos_left (c.K ^ (l + 1)) hpos'
      omega
  refine ⟨_, block c.K (l + 1) x * c.K ^ (l + 1) + 1 + (c.K - 1) * c.K ^ l, hmin, ?_, by omega, ?_⟩
  · unfold NodeInfo.maxPossibleSiblingRvbIndex
    rw [hmin, ok_bind, hr.powUint_eq, Nat.mod_eq_of_lt hnowrap, pure_eq_ok]
  · omega

theorem checkNode_eq (htop : l < top) : t.checkNode c (w.node c top l (block c.K l x)) = .ok true := by
  have hr := R.nodes.inRange _ _ (present_block (c := c) h1 h2 hl htop.le)
  obtain ⟨min, max, hmin, hmax, hle, hge⟩ := R.siblingBounds h1 h2 hl htop
  unfold checkNode
  rw [node_id]
  dsimp only
  rw [hr.level_idAt, hr.rvbIndex_idAt, hmax, ok_bind, if_neg (by omega), hmin, ok_bind,
    if_neg (by omega), R.rightSibling_eq h1 h2 hl htop, ok_bind]
  split_ifs with hnext
  · have hr' : c.InRange l (block c.K l x + 1) := by
      refine (R.nodes.inRange _ _ (present_last ⟨hl, htop.le⟩)).mono ?_
      unfold endChild at hnext
      omega
    dsimp only
    rw [hr.nextRvbIndex, Nat.mod_eq_of_lt (hr'.index_lt.trans (by decide)), ok_bind, node_id,
      hr'.rvbIndex_idAt, decide_eq_true rfl, pure_eq_ok]
  · rfl

/-- **The way to the root** passes. -/
theorem checkPath_eq {steps : ℕ} (htop : l + steps = top) :
    t.checkPath c steps (w.node c top l (block c.K l x)) = .ok true := by
  induction steps generalizing l with
  | zero =>
    obtain rfl : l = top := htop
    have hroot : t.root = some (w.node c l l (block c.K l x)).id :=
      (R.spine hl le_rfl h1 h2).root
    have hparent : (w.node c l l (block c.K l x)).parentId = 0 := parentId_top w l _
    unfold checkPath parentNode
    rw [if_pos hroot, ok_bind, hparent]
    rfl
  | succ steps ih =>
    have hlt : l < top := by omega
    have hmem' := present_block (c := c) (l := l + 1) h1 h2 (by omega) hlt
    have hparent : t.parentNode (w.node c top l (block c.K l x)) =
        .ok (some (w.node c top (l + 1) (block c.K (l + 1) x))) := by
      unfold parentNode
      rw [if_neg (R.not_root hl hlt h1 h2), R.parentId_node hl hlt h1 h2, R.nodes.lookup _ _ hmem']
    rw [checkPath, hparent, ok_bind]
    dsimp only
    rw [R.checkNode_eq h1 h2 hl hlt, ok_bind, if_pos rfl]
    exact ih (by omega) (by omega)

end

theorem totalLevels_eq : t.totalLevels = top := by
  have hr := R.nodes.inRange _ _ (present_first ⟨R.one_le, le_rfl⟩)
  unfold totalLevels
  rw [R.root, Option.map_some, Option.getD_some, hr.level_idAt]

theorem checkSiblings_eq (hmax : w.last < t.maxRvbIndex) (htop : 1 < top)
    {fuel : ℕ} (h1 : w.first ≤ x) (h2 : x ≤ w.last)
    (hfuel : w.endChild c 1 (block c.K 2 x) - block c.K 1 x ≤ fuel) :
    t.checkSiblings c fuel (w.node c top 1 (block c.K 1 x)) = .ok true := by
  induction fuel generalizing x with
  | zero =>
    have hlt : block c.K 1 x < w.endChild c 1 (block c.K 2 x) := (mem_children h1 h2 1).2
    omega
  | succ fuel ih =>
    have hr := R.nodes.inRange _ _ (present_block (c := c) h1 h2 le_rfl R.one_le)
    have hindex : block c.K 1 x * c.K ^ 1 ≤ w.last :=
      le_trans (block_mul_pow_le c.K 1 x) h2
    rw [checkSiblings, node_id, hr.rvbIndex_idAt, if_neg (by omega), R.totalLevels_eq,
      R.checkPath_eq h1 h2 le_rfl (show 1 + (top - 1) = top by omega), ok_bind, if_pos rfl,
      R.rightSibling_eq h1 h2 le_rfl htop, ok_bind]
    by_cases hnext : block c.K 1 x + 1 < w.endChild c 1 (block c.K 2 x)
    · have hmeets : Meets c.K w.first w.last 1 (block c.K 1 x + 1) := by
        refine ⟨le_trans (block_mono c.K 1 h1) (Nat.le_succ _), ?_⟩
        unfold endChild at hnext
        omega
      obtain ⟨y, hy1, hy2, hy⟩ := exists_block_eq hmeets
      have hparent : block c.K 2 y = block c.K 2 x := by
        have h3 : block c.K 2 x * c.K ≤ block c.K 1 x := (block_sub_lt RvtConfig.K_pos 1 x).1
        rw [block_succ, hy, div_eq_iff_mem RvtConfig.K_pos]
        unfold endChild at hnext
        omega
      have hrec := ih hy1 hy2 (by rw [hparent, hy]; omega)
      rw [hy] at hrec
      rw [if_pos hnext]
      exact hrec
    · rw [if_neg hnext]
      rfl

theorem checkArrays_eq (hl : 1 ≤ l) (htop : l ≤ top) : t.checkArrays l = true := by
  have hfirst : w.Present c top l (block c.K l w.first) := present_first ⟨hl, htop⟩
  have hlast : w.Present c top l (block c.K l w.last) := present_last ⟨hl, htop⟩
  have hr := R.nodes.inRange _ _ hfirst
  have hle : c.idAt l (block c.K l w.first) ≤ c.idAt l (block c.K l w.last) := by
    rcases Nat.eq_or_lt_of_le (block_le_block (c := c) (w := w) l) with heq | hlt
    · rw [heq]
    · exact (idAt_lt (R.nodes.inRange _ _ hlast) hlt).le
  unfold checkArrays
  rw [R.leftmost, R.rightmost, if_pos ⟨hl, htop⟩, if_pos ⟨hl, htop⟩]
  dsimp only
  rw [R.nodes.lookup _ _ hfirst, hr.level_idAt, decide_eq_true rfl, decide_eq_true hle]
  rfl

theorem checkCleared_eq (hl : top < l) : t.checkCleared l = true := by
  unfold checkCleared
  rw [R.leftmost, R.rightmost, if_neg (by omega), if_neg (by omega)]
  rfl

theorem idToNode_ne_empty : t.idToNode ≠ ∅ := by
  intro hempty
  have hlookup := R.nodes.lookup _ _ (present_first (w := w) ⟨R.one_le, le_rfl⟩)
  rw [hempty, Finmap.lookup_empty] at hlookup
  cases hlookup

end

theorem validateTreeStructure_eq (R : Rep c w (w.rootLevel c) t) (hmax : w.last < t.maxRvbIndex) :
    t.validateTreeStructure c = .ok true := by
  have hmem : w.Present c (w.rootLevel c) (w.rootLevel c) (block c.K (w.rootLevel c) w.first) :=
    present_first ⟨R.one_le, le_rfl⟩
  have hlevel := (R.nodes.inRange _ _ hmem).level_lt
  have hsome : t.root.isSome = true := by
    rw [R.root]
    rfl
  have hnone : ¬ t.root.isNone = true := by
    rw [R.root]
    exact Bool.false_ne_true
  have hchildren : ¬ (1 < w.rootLevel c ∧ (w.node c (w.rootLevel c) (w.rootLevel c)
      (block c.K (w.rootLevel c) w.first)).childIds.length = 1) := by
    rintro ⟨h1, h2⟩
    obtain ⟨l, hl⟩ := Nat.exists_eq_add_of_le' (show 1 ≤ w.rootLevel c by omega)
    have hcov := covers_rootLevel (c := c) (w := w)
    rw [hl] at h2 hcov
    have hlen := length_childIds_of_covers hcov
    have hlt := block_lt_block (c := c) (w := w) (l := l) (by omega) (by omega)
    have h2' : (w.childIds c l (block c.K (l + 1) w.first)).length = 1 := h2
    omega
  have hmaxLevel : ¬ NodeInfo.kMaxLevels < w.rootLevel c := by
    unfold NodeInfo.kMaxLevels
    omega
  have hbelow : (List.Ico 1 (w.rootLevel c)).all t.checkArrays = true := by
    rw [all_eq_true]
    intro l hl
    have hl' := mem.mp hl
    exact R.checkArrays_eq hl'.1 hl'.2.le
  have habove : (List.Ico (w.rootLevel c + 1) NodeInfo.kMaxLevels).all t.checkCleared = true := by
    rw [all_eq_true]
    intro l hl
    exact R.checkCleared_eq (mem.mp hl).1
  unfold validateTreeStructure
  rw [if_neg fun h => R.idToNode_ne_empty h.2, if_neg fun h => hnone h.1, if_neg hnone,
    derefRoot_eq R.nodes hmem R.root, ok_bind, R.totalLevels_eq, if_neg hmaxLevel,
    if_neg hchildren, hbelow, if_neg (by decide), habove, if_neg (by decide)]
  split_ifs with htop
  · have hfuel : w.endChild c 1 (block c.K 2 w.first) - block c.K 1 w.first ≤ c.K := by
      have h3 : block c.K 2 w.first * c.K ≤ block c.K 1 w.first :=
        (block_sub_lt RvtConfig.K_pos 1 w.first).1
      unfold endChild
      rw [Nat.add_mul, Nat.one_mul]
      omega
    rw [R.leftmost, if_pos ⟨le_rfl, R.one_le⟩]
    dsimp only
    rw [deref_eq R.nodes (present_first ⟨le_rfl, R.one_le⟩), ok_bind]
    exact R.checkSiblings_eq hmax htop le_rfl w.le hfuel
  · rw [pure_eq_ok]

theorem foldlM_childs (R : Rep c w top t) {qs : List ℕ} (hqs : ∀ q ∈ qs, w.Present c top l q)
    (z : ℤ) :
    (qs.map (c.idAt l)).foldlM (fun sum id =>
      match t.idToNode.lookup id with
      | none => .error .assertion
      | some child => .ok (add c sum child.currentValue)) (z % c.nodeValueModulo) =
      (.ok ((z + (qs.map (w.value c l)).sum) % c.nodeValueModulo) : Exec ℤ) := by
  induction qs generalizing z with
  | nil =>
    rw [map_nil, map_nil, sum_nil, add_zero]
    rfl
  | cons q qs ih =>
    have hq := hqs q mem_cons_self
    rw [map_cons, foldlM_cons, R.nodes.lookup l q hq]
    dsimp only
    rw [show (w.node c top l q).currentValue = w.value c l q % c.nodeValueModulo from rfl,
      add_brought, ok_bind, ih fun q' hq' => hqs q' (mem_cons_of_mem _ hq'), map_cons,
      sum_cons, add_assoc]

theorem sumOfChilds_eq (R : Rep c w top t) {j : ℕ} (hl : 1 ≤ l) (hlt : l < top) :
    t.sumOfChilds c (w.node c top (l + 1) j) =
      .ok ((∑ q ∈ Finset.Ico (w.firstChild c l j) (w.endChild c l j), w.value c l q) %
        c.nodeValueModulo) := by
  have hmem : ∀ q ∈ List.Ico (w.firstChild c l j) (w.endChild c l j), w.Present c top l q := by
    intro q hq
    have hq' := mem.mp hq
    unfold firstChild endChild at hq'
    exact ⟨⟨hl, hlt.le⟩, by omega, by omega⟩
  have hsum := R.foldlM_childs hmem 0
  rw [zero_add, Int.zero_emod] at hsum
  exact hsum

theorem checkValue_eq (R : Rep c w top t) {j : ℕ} (hP : w.Present c top l j) :
    t.checkValue c (w.node c top l j) = .ok true := by
  have hr := R.nodes.inRange _ _ hP
  unfold checkValue
  rw [node_id, hr.level_idAt]
  split_ifs with hl
  · rfl
  · obtain ⟨⟨h1, htop⟩, hmeets⟩ := hP
    obtain ⟨l, rfl⟩ := Nat.exists_eq_add_of_le' h1
    obtain ⟨x, hx1, hx2, rfl⟩ := exists_block_eq hmeets
    have hchild := mem_children (c := c) hx1 hx2 l
    have hne : (w.node c top (l + 1) (block c.K (l + 1) x)).childIds.isEmpty = false := by
      show (w.childIds c l (block c.K (l + 1) x)).isEmpty = false
      rw [isEmpty_eq_false_iff]
      unfold childIds
      exact ne_nil_of_mem (mem_map.mpr ⟨_, mem.mpr hchild, rfl⟩)
    have hsub : sub c (w.node c top (l + 1) (block c.K (l + 1) x)).currentValue
        (w.node c top (l + 1) (block c.K (l + 1) x)).initialValue =
        (∑ q ∈ Finset.Ico (w.firstChild c l (block c.K (l + 1) x))
          (w.endChild c l (block c.K (l + 1) x)), w.value c l q) % c.nodeValueModulo := by
      show sub c (w.value c (l + 1) (block c.K (l + 1) x) % c.nodeValueModulo)
        (c.initialValueAt (l + 1) (block c.K (l + 1) x)) = _
      rw [sub_eq, Int.emod_sub_emod, value_succ hmeets, add_sub_cancel_left]
    rw [hne, Bool.not_false, ensure_true, ok_bind, R.sumOfChilds_eq (by omega) (by omega),
      ok_bind, decide_eq_true hsub, pure_eq_ok]

/-- **The values** of the tree pass, in whatever order they are met. -/
theorem validateTreeValues_eq (R : Rep c w top t) {order : List ℕ}
    (horder : ∀ id, id ∈ order ↔ id ∈ t.idToNode) : t.validateTreeValues c order = .ok true := by
  have hcheck : ∀ ids : List ℕ, (∀ id ∈ ids, id ∈ t.idToNode) → t.checkValues c ids = .ok true := by
    intro ids hids
    induction ids with
    | nil => rfl
    | cons id ids ih =>
      obtain ⟨l, j, hP, rfl⟩ := R.nodes.only id (hids id mem_cons_self)
      rw [checkValues, deref_eq R.nodes hP, ok_bind, R.checkValue_eq hP, ok_bind, if_pos rfl]
      exact ih fun id' hid' => hids id' (mem_cons_of_mem _ hid')
  have hkeys : order.toFinset = t.idToNode.keys := by
    ext id
    rw [mem_toFinset, horder, Finmap.mem_keys]
  unfold validateTreeValues
  rw [if_neg fun h => R.idToNode_ne_empty h.2]
  split_ifs with hlevel
  · rfl
  · rw [hcheck order fun id hid => (horder id).1 hid, ok_bind, if_pos rfl, hkeys,
      decide_eq_true rfl, decide_eq_true rfl]
    rfl

end Rep

/-! ## What holds of every tree -/

/-- The value that a child brings: that of the RVB on level 0, that of the node above. -/
def RangeValidationTree.childValue (c : RvtConfig) (s : RvbRange) (t : RangeValidationTree)
    (id : ℕ) : ℤ :=
  if NodeInfo.level id = 0 then
    RvbRange.rvbValue c (NodeInfo.rvbIndex id - 1) (s.data.getD (NodeInfo.rvbIndex id - s.first) [])
  else ((t.idToNode.lookup id).map RVTNode.currentValue).getD 0

structure TreeInvariant (c : RvtConfig) (s : RvbRange) (t : RangeValidationTree) : Prop where
  validate : ∀ order : List ℕ, (∀ id, id ∈ order ↔ id ∈ t.idToNode) →
    t.validate c order = .ok true
  /-- A node covers an aligned span that meets the range. -/
  aligned : ∀ id node, t.idToNode.lookup id = some node →
    node.id = id ∧ 1 ≤ NodeInfo.level id ∧
      (∃ j, NodeInfo.rvbIndex id = j * c.K ^ NodeInfo.level id + 1) ∧
      ∃ i, (s.first ≤ i ∧ i ≤ s.last) ∧ NodeInfo.rvbIndex id ≤ i ∧
        i < NodeInfo.rvbIndex id + c.K ^ NodeInfo.level id
  value : ∀ id node, t.idToNode.lookup id = some node →
    node.initialValue = ofBytes c (c.digest (le64 id ++ initialValueZeroData)) ∧
      node.currentValue = (node.initialValue + (node.childIds.map (t.childValue c s)).sum) %
        c.nodeValueModulo ∧
      0 ≤ node.currentValue ∧ node.currentValue < c.nodeValueModulo
  /-- The root is on the least level that covers the range. -/
  root : s.data ≠ [] → ∃ id, t.root = some id ∧
    IsLeast {l | 1 ≤ l ∧ (s.first - 1) / c.K ^ l = (s.last - 1) / c.K ^ l} (NodeInfo.level id)

namespace Represents

variable {c : RvtConfig} {s : RvbRange} {t : RangeValidationTree} {l j : ℕ}

open RangeValidationTree RvtWindow RvbRange

section

variable (H : Represents c s t)

include H

theorem childValue_modEq (hne : s.data ≠ []) {q : ℕ}
    (hP : (s.window c).Present c ((s.window c).rootLevel c) (l + 1) j)
    (hq : q ∈ List.Ico ((s.window c).firstChild c l j) ((s.window c).endChild c l j)) :
    t.childValue c s (c.idAt l q) ≡ (s.window c).value c l q [ZMOD c.nodeValueModulo] := by
  have R := H.rep hne
  have hfits := H.fits hne
  have hone := H.one_le hne
  have hq' := mem.mp hq
  have hmeets : Meets c.K (s.window c).first (s.window c).last l q := by
    unfold firstChild endChild at hq'
    exact ⟨by omega, by omega⟩
  obtain ⟨x, hx1, hx2, rfl⟩ := exists_block_eq hmeets
  have hr : c.InRange l (block c.K l x) :=
    inRange_block (by have := hfits.index_lt; omega) hfits.pow_lt (by have := hP.1.2; omega)
  unfold childValue
  rw [hr.level_idAt, hr.rvbIndex_idAt]
  rcases Nat.eq_zero_or_pos l with rfl | hl
  · have hvalue : (s.window c).value c 0 (block c.K 0 x) = (s.window c).leaf x := by
      unfold value
      rw [total, if_pos hmeets, block_zero]
      rfl
    have hfirst : (s.window c).first = s.first - 1 := rfl
    rw [if_pos rfl, hvalue, block_zero, pow_zero, Nat.mul_one, Nat.add_sub_cancel,
      show x + 1 - s.first = x - (s.first - 1) by omega]
    rfl
  · have hchild : (s.window c).Present c ((s.window c).rootLevel c) l (block c.K l x) :=
      ⟨⟨hl, by have := hP.1.2; omega⟩, hmeets⟩
    rw [if_neg hl.ne', R.nodes.lookup l _ hchild]
    exact Int.mod_modEq _ _

theorem treeInvariant_nil (hne : s.data = []) : TreeInvariant c s t := by
  obtain ⟨rfl, rfl⟩ := H.empty hne
  have hnone : ∀ id node, RangeValidationTree.empty.idToNode.lookup id ≠ some node := by
    intro id node h
    rw [show RangeValidationTree.empty.idToNode = ∅ from rfl, Finmap.lookup_empty] at h
    cases h
  exact ⟨fun _ _ => rfl, fun id node h => absurd h (hnone id node),
    fun id node h => absurd h (hnone id node), fun h => absurd hne h⟩

/-- The nodes of the tree are those present in the window. -/
theorem exists_present (hne : s.data ≠ []) {id : ℕ} {node : RVTNode}
    (h : t.idToNode.lookup id = some node) :
    ∃ l j, (s.window c).Present c ((s.window c).rootLevel c) l j ∧ id = c.idAt l j ∧
      node = (s.window c).node c ((s.window c).rootLevel c) l j := by
  have R := H.rep hne
  obtain ⟨l, j, hP, rfl⟩ := R.nodes.only id (Finmap.mem_of_lookup_eq_some h)
  rw [R.nodes.lookup l j hP, Option.some.injEq] at h
  exact ⟨l, j, hP, rfl, h.symm⟩

theorem validate_eq (hne : s.data ≠ []) {order : List ℕ}
    (horder : ∀ id, id ∈ order ↔ id ∈ t.idToNode) : t.validate c order = .ok true := by
  have R := H.rep hne
  have hlast := window_last (c := c) hne (H.one_le hne)
  have hmax : (s.window c).last < t.maxRvbIndex := by
    rw [H.max hne]
    omega
  unfold RangeValidationTree.validate
  rw [R.validateTreeStructure_eq hmax, ok_bind, if_pos rfl, R.validateTreeValues_eq horder]

/-- A present node covers an aligned span that meets the range. -/
theorem exists_covered (hne : s.data ≠ [])
    (hP : (s.window c).Present c ((s.window c).rootLevel c) l j) :
    ∃ i, (s.first ≤ i ∧ i ≤ s.last) ∧ j * c.K ^ l + 1 ≤ i ∧ i < j * c.K ^ l + 1 + c.K ^ l := by
  have hone := H.one_le hne
  have hlast := window_last (c := c) hne hone
  have hfirst : (s.window c).first = s.first - 1 := rfl
  obtain ⟨x, hx1, hx2, hx⟩ := exists_block_eq hP.2
  have hlow := block_mul_pow_le c.K l x
  have hhigh := lt_block_succ_mul_pow (RvtConfig.K_pos (c := c)) l x
  rw [hx, Nat.add_mul, Nat.one_mul] at hhigh
  rw [hx] at hlow
  exact ⟨x + 1, ⟨by omega, by omega⟩, by omega, by omega⟩

theorem currentValue_eq (hne : s.data ≠ [])
    (hP : (s.window c).Present c ((s.window c).rootLevel c) (l + 1) j) :
    (s.window c).value c (l + 1) j % c.nodeValueModulo = (c.initialValueAt (l + 1) j +
      (((s.window c).childIds c l j).map (t.childValue c s)).sum) % c.nodeValueModulo := by
  have hsum := Int.ModEq.listSum_map fun q hq => H.childValue_modEq hne hP hq
  rw [value_succ hP.2, childIds, map_map]
  exact (hsum.add_left _).symm

theorem treeInvariant : TreeInvariant c s t := by
  by_cases hne : s.data = []
  · exact H.treeInvariant_nil hne
  have R := H.rep hne
  refine ⟨fun order horder => H.validate_eq hne horder, ?_, ?_, fun _ => ?_⟩
  · intro id node h
    obtain ⟨l, j, hP, rfl, rfl⟩ := H.exists_present hne h
    have hr := R.nodes.inRange l j hP
    rw [hr.level_idAt, hr.rvbIndex_idAt]
    exact ⟨rfl, hP.1.1, ⟨j, rfl⟩, H.exists_covered hne hP⟩
  · intro id node h
    obtain ⟨l, j, hP, rfl, rfl⟩ := H.exists_present hne h
    obtain ⟨l, rfl⟩ := Nat.exists_eq_add_of_le' hP.1.1
    exact ⟨rfl, H.currentValue_eq hne hP, Int.emod_nonneg _ modulo_pos.ne',
      Int.emod_lt_of_pos _ modulo_pos⟩
  · have hr := R.nodes.inRange _ _ (present_first (w := s.window c) ⟨R.one_le, le_rfl⟩)
    have hlast := window_last (c := c) hne (H.one_le hne)
    refine ⟨_, R.root, ?_⟩
    rw [hr.level_idAt, show s.last - 1 = (s.window c).last by omega]
    exact ⟨⟨one_le_rootLevel, covers_rootLevel (c := c) (w := s.window c)⟩,
      fun l hl => rootLevel_le hl.1 hl.2⟩

end

end Represents

/-- **Every tree that calls leave** has the invariant, and no assertion failed on the way. -/
theorem treeInvariant_of_run {c : RvtConfig} {ops : List RvtOp} {s : RvbRange}
    (hops : RvbRange.after c ops = some s) (hfits : EveryFits c ops) :
    ∃ t, run (RangeValidationTree.apply c) .empty ops = .ok t ∧ TreeInvariant c s t := by
  obtain ⟨t, hrun, H⟩ := run_represents hops hfits
  exact ⟨t, hrun, H.treeInvariant⟩

theorem treeInvariant_two_of_three :
    ∃ t, run (RangeValidationTree.apply (.bare 2 (by decide))) .empty
        [.addRightNode 1 [7], .addRightNode 2 [8], .addRightNode 3 [9], .removeLeftNode 1 [7]] =
          .ok t ∧ TreeInvariant (.bare 2 (by decide)) ⟨2, [[8], [9]]⟩ t :=
  treeInvariant_of_run (by decide)
    (everyFits_of_lt (show 1 ≤ 3 by decide) (by decide) (by decide))

/-- A removal that lowers a root of span `2 ^ 56` fails an assertion. -/
theorem not_treeInvariant_wide :
    RvbRange.after (.bare (2 ^ 28) (by decide)) [.addRightNode (2 ^ 28) [],
        .addRightNode (2 ^ 28 + 1) [], .removeLeftNode (2 ^ 28) []] = some ⟨2 ^ 28 + 1, [[]]⟩ ∧
      ¬ ∃ t, run (RangeValidationTree.apply (.bare (2 ^ 28) (by decide))) .empty
        [.addRightNode (2 ^ 28) [], .addRightNode (2 ^ 28 + 1) [], .removeLeftNode (2 ^ 28) []] =
          .ok t ∧ TreeInvariant (.bare (2 ^ 28) (by decide)) ⟨2 ^ 28 + 1, [[]]⟩ t := by
  refine ⟨by decide +kernel, ?_⟩
  rintro ⟨t, hrun, -⟩
  refine not_returns_of_isOk ?_ ⟨t, hrun⟩
  decide +kernel

end ConcordBft
