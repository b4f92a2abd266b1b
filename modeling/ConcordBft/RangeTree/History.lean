import ConcordBft.RangeTree.Remove
import Mathlib.Data.List.GetD
import Mathlib.Data.UInt

/-!
# Histories of a tree

What a range validation tree is for: it stands for a range of consecutive RVBs with their data
(`RvbRange`). The calls add an RVB on the right, remove the first one or clear the range. As long as
the ranges on the way fit the fields of an id, the calls return, and the tree is a function of the
range (`run_represents`): the history does not matter.
-/

namespace ConcordBft

open Verif Verif.Exec Verif.Kary RvtWindow Nat List RangeValidationTree

inductive RvtOp
  | addRightNode (rvbId : ℕ) (data : List UInt8)
  | removeLeftNode (rvbId : ℕ) (data : List UInt8)
  | clear
  deriving DecidableEq

def RangeValidationTree.apply (c : RvtConfig) (t : RangeValidationTree) :
    RvtOp → Exec RangeValidationTree
  | .addRightNode rvbId data => t.addRightNode c rvbId data
  | .removeLeftNode rvbId data => t.removeLeftNode c rvbId data
  | .clear => .ok t.clear

/-- Consecutive RVBs: the index of the first, and the data of all. -/
structure RvbRange where
  first : ℕ
  data : List (List UInt8)
  deriving DecidableEq

namespace RvbRange

variable (c : RvtConfig) (s : RvbRange)

def empty : RvbRange := ⟨0, []⟩

def last : ℕ := s.first + s.data.length - 1

/-- A call that respects the ids: the next RVB on the right, the first one, with its data, on the
left. An empty range may start anywhere. -/
def step (s : RvbRange) : RvtOp → Option RvbRange
  | .addRightNode rvbId data =>
    if RangeValidationTree.isValidRvbId c rvbId then
      if s.data = [] then some ⟨rvbId / c.fetchRangeSize.toNat, [data]⟩
      else if rvbId / c.fetchRangeSize.toNat = s.last + 1 then some ⟨s.first, s.data ++ [data]⟩
      else none
    else none
  | .removeLeftNode rvbId data =>
    match s.data with
    | [] => none
    | d :: rest =>
      if RangeValidationTree.isValidRvbId c rvbId ∧
          rvbId / c.fetchRangeSize.toNat = s.first ∧ data = d then
        some (if rest = [] then empty else ⟨s.first + 1, rest⟩)
      else none
  | .clear => some empty

def after (ops : List RvtOp) : Option RvbRange := ops.foldlM (step c) empty

def adds : List RvtOp :=
  (range s.data.length).map fun i =>
    .addRightNode ((s.first + i) * c.fetchRangeSize.toNat) (s.data.getD i [])

/-- The value of the RVB at position `i`, counted from 0. -/
def rvbValue (i : ℕ) (data : List UInt8) : ℤ :=
  NodeVal.ofBytes c (c.digest (le64 (c.idAt 0 i) ++ data))

def window : RvtWindow where
  first := s.first - 1
  last := s.first - 1 + (s.data.length - 1)
  leaf i := rvbValue c i (s.data.getD (i - (s.first - 1)) [])
  le := le_add_right _ _

/-- What a call must leave behind: the indexes have 56 bits and the span of the root has 64. A root
that gives way to a lower one had a span that is no multiple of `2 ^ 56`. -/
structure StepFits (s s' : RvbRange) : Prop where
  fits : (s'.window c).Fits c
  span : (s'.window c).rootLevel c < (s.window c).rootLevel c →
    c.K ^ (s.window c).rootLevel c % 2 ^ 56 ≠ 0

end RvbRange

/-! ## The tree of a range -/

/-- The tree stands for the range. -/
structure Represents (c : RvtConfig) (s : RvbRange) (t : RangeValidationTree) : Prop where
  empty : s.data = [] → s = RvbRange.empty ∧ t = RangeValidationTree.empty
  one_le : s.data ≠ [] → 1 ≤ s.first
  rep : s.data ≠ [] → Rep c (s.window c) ((s.window c).rootLevel c) t
  min : s.data ≠ [] → t.minRvbIndex = s.first
  max : s.data ≠ [] → t.maxRvbIndex = s.last
  fits : s.data ≠ [] → (s.window c).Fits c

variable {c : RvtConfig}

theorem RvtWindow.rootLevel_congr {w w' : RvtWindow}
    (hfirst : w'.first = w.first) (hlast : w'.last = w.last) : w'.rootLevel c = w.rootLevel c := by
  refine rootLevel_eq one_le_rootLevel ?_ ?_
  · rw [hfirst, hlast, covers_rootLevel]
  · intro l h1 h2
    rw [hfirst, hlast]
    exact block_lt_block h1 h2

theorem Rep.congr {w w' : RvtWindow} {t : RangeValidationTree}
    (R : Rep c w (w.rootLevel c) t) (hfirst : w'.first = w.first) (hlast : w'.last = w.last)
    (hleaf : ∀ i, w.first ≤ i → i ≤ w.last → w'.leaf i = w.leaf i) :
    Rep c w' (w'.rootLevel c) t := by
  rw [rootLevel_congr hfirst hlast]
  refine ⟨R.one_le, by rw [hfirst, hlast, R.covers], ?_, by rw [hfirst, R.root], ?_, ?_, R.erase⟩
  · refine R.nodes.congr ?_ ?_
    · intro l j
      unfold RvtWindow.Present
      rw [hfirst, hlast]
    · intro l j _
      have hvalue : w'.value c l j = w.value c l j := by
        unfold value
        rw [hfirst, hlast]
        refine total_congr (w.own c) RvtConfig.K_pos w.le ?_ ?_ l j
        · exact hleaf
        · exact fun _ _ => rfl
      unfold node childIds firstChild endChild
      rw [hvalue, hfirst, hlast]
  · intro l
    rw [R.rightmost, hlast]
  · intro l
    rw [R.leftmost, hfirst]

/-- The tree is a function of the range. -/
theorem Represents.unique {s : RvbRange} {t t' : RangeValidationTree}
    (H : Represents c s t) (H' : Represents c s t') : t = t' := by
  by_cases hempty : s.data = []
  · rw [(H.empty hempty).2, (H'.empty hempty).2]
  · exact (H.rep hempty).unique (H'.rep hempty) ((H.min hempty).trans (H'.min hempty).symm)
      ((H.max hempty).trans (H'.max hempty).symm)

theorem represents_empty (c : RvtConfig) :
    Represents c RvbRange.empty empty where
  empty _ := ⟨rfl, rfl⟩
  one_le h := absurd rfl h
  rep h := absurd rfl h
  min h := absurd rfl h
  max h := absurd rfl h
  fits h := absurd rfl h

/-! ## The calls -/

namespace RvbRange

variable {c : RvtConfig} {s s' : RvbRange}

theorem rvbValue_nonneg (i : ℕ) (data : List UInt8) : 0 ≤ rvbValue c i data :=
  NodeVal.ofBytes_nonneg _

theorem window_last (h : s.data ≠ []) (hone : 1 ≤ s.first) : (s.window c).last + 1 = s.last := by
  have := length_pos_iff.mpr h
  show s.first - 1 + (s.data.length - 1) + 1 = s.first + s.data.length - 1
  omega

theorem window_first (hone : 1 ≤ s.first) : (s.window c).first + 1 = s.first := by
  show s.first - 1 + 1 = s.first
  omega

end RvbRange

namespace RangeValidationTree

variable {c : RvtConfig} {t : RangeValidationTree}

open RvbRange

theorem rvbIdToIndex_of_valid {rvbId : ℕ} (h : isValidRvbId c rvbId = true) :
    rvbIdToIndex c rvbId = .ok (rvbId / c.fetchRangeSize.toNat) := by
  unfold rvbIdToIndex
  rw [h, ensure_true, ok_bind, pure_eq_ok]

theorem one_le_index {rvbId : ℕ} (h : isValidRvbId c rvbId = true) :
    1 ≤ rvbId / c.fetchRangeSize.toNat := by
  unfold isValidRvbId at h
  rw [Bool.and_eq_true, Bool.and_eq_true, decide_eq_true_eq, decide_eq_true_eq,
    decide_eq_true_eq] at h
  obtain ⟨⟨h1, -⟩, h3⟩ := h
  have hdvd := Nat.div_mul_cancel (Nat.dvd_of_mod_eq_zero h3)
  by_contra hzero
  rw [Nat.lt_one_iff.mp (Nat.not_le.mp hzero), Nat.zero_mul] at hdvd
  exact h1 hdvd.symm

theorem new_eq {i : ℕ} (hi : i + 1 < 2 ^ 56) (data : List UInt8) :
    RVBNode.new c (i + 1) data = .ok ⟨c.idAt 0 i, rvbValue c i data⟩ := by
  have hr : c.InRange 0 i := by
    refine ⟨?_, ?_⟩
    · rw [pow_zero, mul_one]
      exact hi
    · rw [pow_zero]
      decide
  have hid : NodeInfo.id 0 (i + 1) = c.idAt 0 i := by
    unfold RvtConfig.idAt
    rw [pow_zero, mul_one]
  unfold RVBNode.new
  rw [hid]
  dsimp only
  rw [hr.computeNodeInitialValue, ok_bind, hr.level_idAt, ensure_decide rfl, pure_eq_ok]
  rfl

end RangeValidationTree

namespace Represents

variable {c : RvtConfig} {s : RvbRange} {t : RangeValidationTree}

open RangeValidationTree RvbRange

theorem addRightNode_first (H : Represents c RvbRange.empty t) {rvbId : ℕ} {data : List UInt8}
    (hvalid : isValidRvbId c rvbId = true)
    (hfit : (window c ⟨rvbId / c.fetchRangeSize.toNat, [data]⟩).Fits c) :
    ∃ t', t.addRightNode c rvbId data = .ok t' ∧
      Represents c ⟨rvbId / c.fetchRangeSize.toNat, [data]⟩ t' := by
  obtain rfl := (H.empty rfl).2
  obtain ⟨i, hi⟩ := Nat.exists_eq_add_of_le' (one_le_index hvalid)
  rw [hi] at hfit ⊢
  have hsingle : (single i (rvbValue c i data)).Fits c := by
    have hlevel : (single i (rvbValue c i data)).rootLevel c =
        (window c ⟨i + 1, [data]⟩).rootLevel c := rootLevel_congr rfl rfl
    exact ⟨hfit.index_lt, hlevel ▸ hfit.pow_lt⟩
  obtain ⟨t', hadd, hrep, hmin, hmax⟩ := addRVBNode_empty (rvbValue_nonneg i data) hsingle
  have hmin' : t'.minRvbIndex = 0 := hmin
  have hindex : i + 1 < 2 ^ 56 := hfit.index_lt
  have hrep' : Rep c (window c ⟨i + 1, [data]⟩) ((window c ⟨i + 1, [data]⟩).rootLevel c) t' := by
    refine hrep.congr rfl rfl ?_
    intro j (h1 : i ≤ j) (h2 : j ≤ i)
    obtain rfl : j = i := by omega
    show rvbValue c j ([data].getD (j - (j + 1 - 1)) []) = if j = j then _ else _
    rw [if_pos rfl, Nat.add_sub_cancel, Nat.sub_self]
    rfl
  unfold addRightNode
  rw [rvbIdToIndex_of_valid hvalid, ok_bind, hi, new_eq hindex, ok_bind,
    decide_eq_true (show RangeValidationTree.empty.maxRvbIndex = 0 from rfl), Bool.true_or,
    ensure_true, ok_bind, hadd, ok_bind, hmin', if_pos rfl]
  refine ⟨_, rfl, fun h => absurd h (cons_ne_nil _ _), fun _ => le_add_left _ _,
    fun _ => hrep'.setBounds _ _, fun _ => rfl, fun _ => ?_, fun _ => hfit⟩
  · show i + 1 = i + 1 + 1 - 1
    rw [Nat.add_sub_cancel]

theorem addRightNode_next (H : Represents c s t) (hne : s.data ≠ []) {rvbId : ℕ} {data : List UInt8}
    (hvalid : isValidRvbId c rvbId = true) (hnext : rvbId / c.fetchRangeSize.toNat = s.last + 1)
    (hfit : (window c ⟨s.first, s.data ++ [data]⟩).Fits c) :
    ∃ t', t.addRightNode c rvbId data = .ok t' ∧ Represents c ⟨s.first, s.data ++ [data]⟩ t' := by
  have hone := H.one_le hne
  have hlen := length_pos_iff.mpr hne
  have hlast := window_last (c := c) hne hone
  have hne' : s.data ++ [data] ≠ [] := append_ne_nil_of_right_ne_nil _ (cons_ne_nil _ _)
  have hlast' : (window c ⟨s.first, s.data ++ [data]⟩).last = (s.window c).last + 1 := by
    show s.first - 1 + ((s.data ++ [data]).length - 1) = s.first - 1 + (s.data.length - 1) + 1
    rw [length_append, length_singleton]
    omega
  have hpush : ((s.window c).push (rvbValue c ((s.window c).last + 1) data)).Fits c := by
    have hlevel : ((s.window c).push (rvbValue c ((s.window c).last + 1) data)).rootLevel c =
        (window c ⟨s.first, s.data ++ [data]⟩).rootLevel c :=
      rootLevel_congr rfl hlast'.symm
    refine ⟨?_, hlevel ▸ hfit.pow_lt⟩
    have := hfit.index_lt
    rw [hlast'] at this
    exact this
  obtain ⟨t', hadd, hrep, hmin, hmax⟩ :=
    (H.rep hne).addRVBNode_eq (rvbValue_nonneg _ data) hpush
  have hrep' : Rep c (window c ⟨s.first, s.data ++ [data]⟩)
      ((window c ⟨s.first, s.data ++ [data]⟩).rootLevel c) t' := by
    refine hrep.congr rfl hlast' ?_
    intro i h1 h2
    have hfirst : (s.window c).first = s.first - 1 := rfl
    have hlast₀ : (s.window c).last = s.first - 1 + (s.data.length - 1) := rfl
    have h1' : s.first - 1 ≤ i := h1
    by_cases hi : i = (s.window c).last + 1
    · show rvbValue c i ((s.data ++ [data]).getD (i - (s.first - 1)) []) = if _ then _ else _
      rw [if_pos hi, show i - (s.first - 1) = s.data.length by omega, hi,
        getD_append_right _ _ _ _ le_rfl, Nat.sub_self]
      rfl
    · have h2' : i ≤ (s.window c).last + 1 := h2
      have hlt : i - (s.first - 1) < s.data.length := by omega
      exact (congrArg (rvbValue c i) (getD_append _ _ _ _ hlt)).trans (if_neg hi).symm
  have hmin' : t'.minRvbIndex = s.first := hmin.trans (H.min hne)
  have hindex : (s.window c).last + 1 + 1 < 2 ^ 56 := hpush.index_lt
  unfold addRightNode
  rw [rvbIdToIndex_of_valid hvalid, ok_bind, hnext, ← hlast, new_eq hindex, ok_bind, H.max hne,
    ← hlast, mod_eq_of_lt (by omega), decide_eq_true (show (s.window c).last + 1 + 1 = _ from rfl),
    Bool.or_true, ensure_true, ok_bind, hadd, ok_bind, hmin', if_neg (by omega)]
  refine ⟨_, rfl, fun h => absurd h hne', fun _ => hone, fun _ => hrep'.setBounds _ _,
    fun _ => rfl, fun _ => ?_, fun _ => hfit⟩
  · show (s.window c).last + 1 + 1 = s.first + (s.data ++ [data]).length - 1
    rw [hlast, length_append, length_singleton]
    show s.first + s.data.length - 1 + 1 = _
    omega

theorem removeLeftNode_eq (H : Represents c s t) {d : List UInt8} {rest : List (List UInt8)}
    (hdata : s.data = d :: rest) {rvbId : ℕ} (hvalid : isValidRvbId c rvbId = true)
    (hfirst : rvbId / c.fetchRangeSize.toNat = s.first)
    (hfit : rest ≠ [] → s.StepFits c ⟨s.first + 1, rest⟩) :
    ∃ t', t.removeLeftNode c rvbId d = .ok t' ∧
      Represents c (if rest = [] then RvbRange.empty else ⟨s.first + 1, rest⟩) t' := by
  have hne : s.data ≠ [] := by
    rw [hdata]
    exact cons_ne_nil _ _
  have hone := H.one_le hne
  have hfit' := H.fits hne
  have R := H.rep hne
  have hwfirst : (s.window c).first = s.first - 1 := rfl
  have hwlast : (s.window c).last = s.first - 1 + rest.length := by
    show s.first - 1 + (s.data.length - 1) = _
    rw [hdata]
    rfl
  have hleaf : (s.window c).leaf (s.window c).first = rvbValue c (s.window c).first d := by
    show rvbValue c (s.first - 1) (s.data.getD (s.first - 1 - (s.first - 1)) []) = _
    rw [Nat.sub_self, hdata]
    rfl
  have hindex : (s.window c).first + 1 < 2 ^ 56 := by
    have := hfit'.index_lt
    omega
  have hstart : s.first = (s.window c).first + 1 := (window_first hone).symm
  unfold removeLeftNode
  rw [R.root, Option.isSome_some, ensure_true, ok_bind, rvbIdToIndex_of_valid hvalid, ok_bind,
    hfirst, hstart, new_eq hindex, ok_bind, H.min hne, ensure_decide hstart, ← hleaf]
  split_ifs with hrest
  · have hsingle : (s.window c).first = (s.window c).last := by
      rw [hwlast, hrest]
      rfl
    rw [R.removeRVBNode_single hsingle, ok_bind]
    exact ⟨_, rfl, represents_empty c⟩
  · have hlen := length_pos_iff.mpr hrest
    have hlt : (s.window c).first < (s.window c).last := by omega
    have hpop : ((s.window c).pop hlt).rootLevel c =
        (window c ⟨s.first + 1, rest⟩).rootLevel c := by
      refine rootLevel_congr ?_ ?_
      · show s.first - 1 + 1 = s.first + 1 - 1
        omega
      · show (s.window c).last = s.first + 1 - 1 + (rest.length - 1)
        omega
    have hspan := (hfit hrest).span
    rw [← hpop] at hspan
    obtain ⟨t', f', hremove, S, hmin, hmax⟩ := R.removeRVBNode_eq hlt hspan
    have hrep := S.rep
    have hroot : t'.root.isNone = false := by
      rw [S.root]
      rfl
    have hmin' : t'.minRvbIndex = s.first := hmin.trans (H.min hne)
    have hmax' : t'.maxRvbIndex = s.last := hmax.trans (H.max hne)
    rw [hremove, ok_bind]
    dsimp only
    rw [hroot, if_neg Bool.false_ne_true, hmin', mod_eq_of_lt (by omega)]
    refine ⟨_, rfl, fun h => absurd h hrest, fun _ => le_add_left _ _, fun _ => ?_, fun _ => ?_,
      fun _ => ?_, fun _ => ?_⟩
    · refine (Rep.congr hrep ?_ ?_ ?_).setBounds (s.first + 1) t'.maxRvbIndex
      · rfl
      · show (s.window c).first + 1 + 1 - 1 + (rest.length - 1) = (s.window c).last
        omega
      · intro i h1 _
        have h1' : (s.window c).first + 1 ≤ i := h1
        show rvbValue c i (rest.getD (i - ((s.window c).first + 1 + 1 - 1)) []) =
          rvbValue c i (s.data.getD (i - (s.first - 1)) [])
        rw [hdata, ← hwfirst, Nat.add_sub_cancel,
          show i - (s.window c).first = i - ((s.window c).first + 1) + 1 by omega, getD_cons_succ]
    · show s.first + 1 = s.first - 1 + 1 + 1
      omega
    · show t'.maxRvbIndex = s.first - 1 + 1 + 1 + rest.length - 1
      rw [hmax', RvbRange.last, hdata, length_cons]
      omega
    · rw [← hstart]
      exact (hfit hrest).fits

theorem apply_eq (H : Represents c s t) {op : RvtOp} {s' : RvbRange} (hstep : s.step c op = some s')
    (hfit : s'.data ≠ [] → s.StepFits c s') : ∃ t', t.apply c op = .ok t' ∧ Represents c s' t' := by
  cases op with
  | addRightNode rvbId data =>
    unfold RvbRange.step at hstep
    dsimp only at hstep
    split_ifs at hstep with hvalid hempty hnext
    · cases hstep
      obtain rfl := (H.empty hempty).1
      exact H.addRightNode_first hvalid (hfit (cons_ne_nil _ _)).fits
    · cases hstep
      exact H.addRightNode_next hempty hvalid hnext
        (hfit (append_ne_nil_of_right_ne_nil _ (cons_ne_nil _ _))).fits
  | removeLeftNode rvbId data =>
    unfold RvbRange.step at hstep
    dsimp only at hstep
    split at hstep
    · cases hstep
    · rename_i d rest hdata
      split at hstep
      · rename_i hcall
        obtain ⟨hvalid, hfirst, rfl⟩ := hcall
        cases hstep
        refine H.removeLeftNode_eq hdata hvalid hfirst fun hrest => ?_
        rw [if_neg hrest] at hfit
        exact hfit hrest
      · cases hstep
  | clear =>
    cases hstep
    exact ⟨_, rfl, represents_empty c⟩

end Represents

namespace RvbRange

variable {c : RvtConfig} {s : RvbRange}

theorem after_concat (c : RvtConfig) (ops : List RvtOp) (op : RvtOp) :
    after c (ops ++ [op]) = after c ops >>= fun s => s.step c op := by
  unfold after
  rw [foldlM_append]
  congr 1
  funext s
  rw [foldlM_cons]
  cases step c s op with
  | none => rfl
  | some s' => rfl

end RvbRange

def EveryFits (c : RvtConfig) (ops : List RvtOp) : Prop :=
  ∀ before op, before ++ [op] <+: ops → ∀ s s', RvbRange.after c before = some s →
    s.step c op = some s' → s'.data ≠ [] → s.StepFits c s'

open RvbRange in
/-- **A whole history**: the calls return, and the tree stands for the range. -/
theorem run_represents {ops : List RvtOp} {s : RvbRange}
    (hops : after c ops = some s) (hfits : EveryFits c ops) :
    ∃ t, run (apply c) .empty ops = .ok t ∧ Represents c s t := by
  induction ops using reverseRecOn generalizing s with
  | nil =>
    cases hops
    exact ⟨_, rfl, represents_empty c⟩
  | append_singleton ops op ih =>
    have hfits' : EveryFits c ops := fun before op' hpre =>
      hfits before op' (hpre.trans (prefix_append _ _))
    rw [after_concat, Option.bind_eq_bind, Option.bind_eq_some_iff] at hops
    obtain ⟨s₁, hs₁, hstep⟩ := hops
    obtain ⟨t₁, hrun, H⟩ := ih hs₁ hfits'
    obtain ⟨t₂, happly, H₂⟩ := H.apply_eq hstep (hfits ops op prefix_rfl s₁ s hs₁ hstep)
    exact ⟨t₂, by rw [run_concat, hrun, ok_bind, happly], H₂⟩

/-! ## The range alone -/

namespace RvtWindow

variable {c : RvtConfig} {w w' : RvtWindow}

theorem Fits.mono (h : w.Fits c) (hfirst : w'.first = w.first) (hlast : w'.last ≤ w.last) :
    w'.Fits c := by
  have hlevel : w'.rootLevel c ≤ w.rootLevel c := by
    refine rootLevel_le one_le_rootLevel ?_
    have h1 := covers_rootLevel (c := c) (w := w)
    have h2 := block_mono c.K (w.rootLevel c) hlast
    have h3 := block_le_block (c := c) (w := w') (w.rootLevel c)
    rw [hfirst] at h3 ⊢
    omega
  have hindex := h.index_lt
  exact ⟨by omega, Nat.lt_of_le_of_lt (Nat.pow_le_pow_right RvtConfig.K_pos hlevel) h.pow_lt⟩

end RvtWindow

namespace RvbRange

variable {c : RvtConfig} {s : RvbRange}

theorem fetchRangeSize_pos {ops : List RvtOp} (hops : after c ops = some s) (hne : s.data ≠ []) :
    0 < c.fetchRangeSize.toNat := by
  by_contra hzero
  -- no id is valid, and the only calls are those that clear the range
  have hinvalid : ∀ rvbId, isValidRvbId c rvbId = false := by
    intro rvbId
    rw [← Bool.not_eq_true]
    intro h
    have hone := one_le_index h
    rw [Nat.eq_zero_of_not_pos hzero, Nat.div_zero] at hone
    omega
  rcases eq_nil_or_concat' ops with rfl | ⟨ops, op, rfl⟩
  · cases hops
    exact hne rfl
  · rw [after_concat, Option.bind_eq_bind, Option.bind_eq_some_iff] at hops
    obtain ⟨s₁, -, hstep⟩ := hops
    cases op with
    | addRightNode rvbId data => simp [step, hinvalid] at hstep
    | removeLeftNode rvbId data => cases hdata : s₁.data <;> simp [step, hinvalid, hdata] at hstep
    | clear =>
      cases hstep
      exact hne rfl

def take (s : RvbRange) (n : ℕ) : RvbRange := if n = 0 then empty else ⟨s.first, s.data.take n⟩

/-- **The range alone**: adding its RVBs to the empty tree gives a tree that stands for it. -/
theorem run_adds (hone : 1 ≤ s.first) (hsize : 0 < c.fetchRangeSize.toNat)
    (hfit : (s.window c).Fits c) {n : ℕ} (hn : n ≤ s.data.length) :
    ∃ t, run (apply c) .empty ((s.adds c).take n) = .ok t ∧ Represents c (s.take n) t := by
  induction n with
  | zero => exact ⟨_, rfl, represents_empty c⟩
  | succ n ih =>
    obtain ⟨t, hrun, H⟩ := ih (by omega)
    have htake : (s.adds c).take (n + 1) = (s.adds c).take n ++
        [.addRightNode ((s.first + n) * c.fetchRangeSize.toNat) (s.data.getD n [])] := by
      unfold adds
      rw [← map_take, ← map_take, take_range, take_range, min_eq_left hn,
        min_eq_left (by omega), range_succ, map_append]
      rfl
    have hdata : s.data.take (n + 1) = s.data.take n ++ [s.data.getD n []] := by
      rw [take_add_one, getElem?_eq_getElem (by omega), getD_eq_getElem _ _ (by omega)]
      rfl
    have hindex : (s.first + n) * c.fetchRangeSize.toNat / c.fetchRangeSize.toNat = s.first + n :=
      Nat.mul_div_cancel _ hsize
    have hvalid : isValidRvbId c
        ((s.first + n) * c.fetchRangeSize.toNat) = true := by
      have hpos := mul_pos (show 0 < s.first + n by omega) hsize
      have hne : c.fetchRangeSize ≠ 0 := by
        intro h
        rw [h] at hsize
        exact absurd hsize (by decide)
      unfold isValidRvbId
      rw [decide_eq_true (show (s.first + n) * c.fetchRangeSize.toNat ≠ 0 by omega),
        decide_eq_true hne, mul_mod_left, decide_eq_true rfl]
      rfl
    have hfit' : (window c ⟨s.first, s.data.take (n + 1)⟩).Fits c := by
      refine hfit.mono rfl ?_
      show s.first - 1 + ((s.data.take (n + 1)).length - 1) ≤ s.first - 1 + (s.data.length - 1)
      rw [length_take, min_eq_left hn]
      omega
    have hstep : ∃ t', t.apply c (.addRightNode ((s.first + n) * c.fetchRangeSize.toNat)
        (s.data.getD n [])) = .ok t' ∧ Represents c (s.take (n + 1)) t' := by
      unfold take at H ⊢
      rw [if_neg (Nat.succ_ne_zero n)]
      rcases Nat.eq_zero_or_pos n with rfl | hpos
      · rw [if_pos rfl] at H
        rw [hdata, take_zero, nil_append] at hfit' ⊢
        rw [add_zero] at hindex hvalid ⊢
        have hfirst := H.addRightNode_first hvalid (hindex.symm ▸ hfit')
        rw [hindex] at hfirst
        exact hfirst
      · rw [if_neg hpos.ne'] at H
        have hlast : s.first + n = (RvbRange.mk s.first (s.data.take n)).last + 1 := by
          show s.first + n = s.first + (s.data.take n).length - 1 + 1
          rw [length_take, min_eq_left (by omega)]
          omega
        have hne : s.data.take n ≠ [] := by
          intro h
          have := congrArg length h
          rw [length_take, min_eq_left (by omega), length_nil] at this
          omega
        rw [hdata] at hfit' ⊢
        exact H.addRightNode_next hne hvalid (hindex.trans hlast) hfit'
    obtain ⟨t', happly, H'⟩ := hstep
    exact ⟨t', by rw [htake, run_concat, hrun, ok_bind, happly], H'⟩

end RvbRange

theorem everyFits_of_lt {ops : List RvtOp} {l : ℕ} (hl : 1 ≤ l) (hspan : c.K ^ l < 2 ^ 56)
    (hlt : ∀ before ∈ ops.inits, ∀ s ∈ RvbRange.after c before, s.last < c.K ^ l) :
    EveryFits c ops := by
  have hlevel : ∀ s : RvbRange, s.last < c.K ^ l → (s.window c).rootLevel c ≤ l := by
    intro s hs
    have hlast : (s.window c).last < c.K ^ l := by
      refine Nat.lt_of_le_of_lt ?_ hs
      show s.first - 1 + (s.data.length - 1) ≤ s.first + s.data.length - 1
      omega
    refine rootLevel_le hl ?_
    unfold block
    rw [div_eq_of_lt hlast, div_eq_of_lt (Nat.lt_of_le_of_lt (s.window c).le hlast)]
  intro before op hpre s s' hs hstep hne
  have hmem : before ++ [op] ∈ ops.inits := (mem_inits _ _).mpr hpre
  have hmem' : before ∈ ops.inits :=
    (mem_inits _ _).mpr ((prefix_append before [op]).trans hpre)
  have hs' : RvbRange.after c (before ++ [op]) = some s' := by
    rw [RvbRange.after_concat, hs]
    exact hstep
  have hlast := hlt _ hmem s' hs'
  have hpow : ∀ {k : ℕ}, k ≤ l → c.K ^ k < 2 ^ 56 := fun hk =>
    Nat.lt_of_le_of_lt (Nat.pow_le_pow_right RvtConfig.K_pos hk) hspan
  refine ⟨⟨?_, ?_⟩, fun _ => ?_⟩
  · have hlen := length_pos_iff.mpr hne
    unfold RvbRange.last at hlast
    show s'.first - 1 + (s'.data.length - 1) + 1 < 2 ^ 56
    omega
  · exact lt_trans (hpow (hlevel s' hlast)) (by decide)
  · have hpos := RvtConfig.pow_pos (c := c) (l := (s.window c).rootLevel c)
    rw [mod_eq_of_lt (hpow (hlevel s (hlt before hmem' s hs)))]
    omega

open RvbRange in
/-- **The history does not matter**: the tree after a history is the tree of its range alone. -/
theorem history_independent {c : RvtConfig} {ops : List RvtOp} {s : RvbRange}
    (hops : after c ops = some s) (hne : s.data ≠ []) (hfits : EveryFits c ops) :
    ∃ t, run (RangeValidationTree.apply c) .empty ops = .ok t ∧
      run (RangeValidationTree.apply c) .empty (s.adds c) = .ok t := by
  obtain ⟨t, hrun, H⟩ := run_represents hops hfits
  obtain ⟨t', hrun', H'⟩ := run_adds (H.one_le hne) (fetchRangeSize_pos hops hne) (H.fits hne)
    (le_refl s.data.length)
  have htake : s.take s.data.length = s := by
    have hlen : s.data.length ≠ 0 := (length_pos_iff.mpr hne).ne'
    unfold RvbRange.take
    rw [if_neg hlen, take_length]
  have hadds : (s.adds c).take s.data.length = s.adds c := by
    rw [take_of_length_le]
    unfold adds
    rw [length_map, length_range]
  rw [htake] at H'
  rw [hadds, ← H.unique H'] at hrun'
  exact ⟨t, hrun, hrun'⟩

/-- Ranges of one block, and digests that are the bytes themselves. -/
def RvtConfig.bare (rvtK : UInt32) (h : 2 ≤ rvtK.toNat) : RvtConfig := ⟨rvtK, 1, 2, id, h⟩

theorem history_independent_two_of_three :
    ∃ t, run (RangeValidationTree.apply (.bare 2 (by decide))) .empty
        [.addRightNode 1 [7], .addRightNode 2 [8], .addRightNode 3 [9], .removeLeftNode 1 [7]] =
          .ok t ∧
      run (RangeValidationTree.apply (.bare 2 (by decide))) .empty
        (RvbRange.adds (.bare 2 (by decide)) ⟨2, [[8], [9]]⟩) = .ok t :=
  history_independent (by decide) (by decide)
    (everyFits_of_lt (show 1 ≤ 3 by decide) (by decide) (by decide))

/-- A root of span `2 ^ 56` that gives way, a span of `2 ^ 64` and an index of `2 ^ 56`: calls that
respect the ids, and stop the process. -/
theorem not_history_independent_wide :
    (RvbRange.after (.bare (2 ^ 28) (by decide)) [.addRightNode (2 ^ 28) [],
        .addRightNode (2 ^ 28 + 1) [], .removeLeftNode (2 ^ 28) []] = some ⟨2 ^ 28 + 1, [[]]⟩ ∧
      ¬ Returns (run (RangeValidationTree.apply (.bare (2 ^ 28) (by decide))) .empty
        [.addRightNode (2 ^ 28) [], .addRightNode (2 ^ 28 + 1) [],
          .removeLeftNode (2 ^ 28) []])) ∧
    (RvbRange.after (.bare (2 ^ 16) (by decide)) [.addRightNode (2 ^ 48) [],
        .addRightNode (2 ^ 48 + 1) []] = some ⟨2 ^ 48, [[], []]⟩ ∧
      ¬ Returns (run (RangeValidationTree.apply (.bare (2 ^ 16) (by decide))) .empty
        [.addRightNode (2 ^ 48) [], .addRightNode (2 ^ 48 + 1) []])) ∧
    (RvbRange.after (.bare 2 (by decide)) [.addRightNode (2 ^ 56) []] = some ⟨2 ^ 56, [[]]⟩ ∧
      ¬ Returns (run (RangeValidationTree.apply (.bare 2 (by decide))) .empty
        [.addRightNode (2 ^ 56) []])) := by
  refine ⟨⟨by decide +kernel, ?_⟩, ⟨by decide +kernel, ?_⟩, by decide +kernel, ?_⟩
  all_goals
    apply not_returns_of_isOk
    decide +kernel

open RvbRange RangeValidationTree in
/-- **Nothing is left behind**: calls that end with an empty range leave the empty tree. -/
theorem run_empty {c : RvtConfig} {ops : List RvtOp} {s : RvbRange} (hops : after c ops = some s)
    (hs : s.data = []) (hfits : EveryFits c ops) : run (apply c) .empty ops = .ok .empty := by
  obtain ⟨t, hrun, H⟩ := run_represents hops hfits
  rw [hrun, (H.empty hs).2]

theorem run_empty_two : run (RangeValidationTree.apply (.bare 2 (by decide))) .empty
    [.addRightNode 1 [7], .addRightNode 2 [8], .removeLeftNode 1 [7], .removeLeftNode 2 [8]] =
      .ok .empty :=
  run_empty (s := .empty) (by decide) rfl
    (everyFits_of_lt (show 1 ≤ 3 by decide) (by decide) (by decide))

end ConcordBft
