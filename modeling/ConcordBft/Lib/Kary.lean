import Mathlib.Algebra.BigOperators.Group.Finset.Basic
import Mathlib.Order.Interval.Finset.Nat
import Mathlib.Tactic.Ring

/-!
# Aligned blocks of powers of `K`

The numbers are grouped in blocks: block `j` of level `l` holds `j * K ^ l, …, (j + 1) * K ^ l - 1`.
For a window `a, …, b` the blocks of a level that meet it are those from the block of `a` to the
block of `b`. The window grows by one number on the right or loses one on the left; which blocks
appear or disappear is a question of divisibility (`Carries`), and the total of what belongs to
the blocks below a block changes along one path only (`total_succ_right`, `total_succ_left`).
-/

namespace Verif.Kary

open Nat Finset

/-- The block of level `l` that holds `i`. -/
def block (K l i : ℕ) : ℕ := i / K ^ l

/-- `i + 1` is the first number of its block of level `l`. -/
def Carries (K l i : ℕ) : Prop := K ^ l ∣ i + 1

instance (K l i : ℕ) : Decidable (Carries K l i) := by
  unfold Carries
  infer_instance

variable {K l i j : ℕ}

@[simp] theorem block_zero (K i : ℕ) : block K 0 i = i := by
  unfold block
  rw [pow_zero, Nat.div_one]

theorem block_succ (K l i : ℕ) : block K (l + 1) i = block K l i / K := by
  unfold block
  rw [pow_succ, Nat.div_div_eq_div_mul]

theorem block_mono (K l : ℕ) {i j : ℕ} (h : i ≤ j) : block K l i ≤ block K l j :=
  Nat.div_le_div_right h

theorem block_eq_of_le {i j l' : ℕ} (h : block K l i = block K l j) (hle : l ≤ l') :
    block K l' i = block K l' j := by
  induction hle with
  | refl => exact h
  | step _ ih => rw [succ_eq_add_one, block_succ, block_succ, ih]

theorem carries_zero (K i : ℕ) : Carries K 0 i := one_dvd _

theorem Carries.of_succ (h : Carries K (l + 1) i) : Carries K l i :=
  dvd_trans (pow_dvd_pow K (le_succ l)) h

theorem Carries.of_le {l' : ℕ} (h : Carries K l i) (hle : l' ≤ l) : Carries K l' i :=
  dvd_trans (pow_dvd_pow K hle) h

theorem Carries.block_succ_index (h : Carries K l i) : block K l (i + 1) = block K l i + 1 := by
  unfold block
  exact succ_div_of_dvd h

theorem block_succ_index_of_not (h : ¬ Carries K l i) : block K l (i + 1) = block K l i := by
  unfold block
  exact succ_div_of_not_dvd h

theorem block_succ_index_le (K l i : ℕ) : block K l (i + 1) ≤ block K l i + 1 := by
  by_cases h : Carries K l i
  · rw [h.block_succ_index]
  · rw [block_succ_index_of_not h]
    exact le_succ _

theorem Carries.block_eq_mul (h : Carries K (l + 1) i) :
    block K l (i + 1) = block K (l + 1) (i + 1) * K := by
  rw [block_succ]
  refine (Nat.div_mul_cancel ?_).symm
  obtain ⟨c, hc⟩ := h
  rcases Nat.eq_zero_or_pos (K ^ l) with h0 | hpos
  · rw [pow_succ, h0, Nat.zero_mul, Nat.zero_mul] at hc
    omega
  unfold block
  rw [hc, pow_succ, Nat.mul_assoc, Nat.mul_div_cancel_left _ hpos]
  exact Nat.dvd_mul_right K c

theorem block_mul_pow_le (K l i : ℕ) : block K l i * K ^ l ≤ i := div_mul_le_self i (K ^ l)

theorem lt_block_succ_mul_pow (hK : 0 < K) (l i : ℕ) : i < (block K l i + 1) * K ^ l := by
  unfold block
  rw [Nat.mul_comm]
  exact Nat.lt_mul_div_succ i (Nat.pow_pos hK)

theorem block_sub_lt (hK : 0 < K) (l i : ℕ) :
    block K (l + 1) i * K ≤ block K l i ∧ block K l i < (block K (l + 1) i + 1) * K := by
  rw [block_succ]
  constructor
  · exact div_mul_le_self _ _
  · rw [mul_comm]
    exact lt_mul_div_succ _ hK

theorem div_eq_iff_mem (hK : 0 < K) {x : ℕ} : x / K = j ↔ j * K ≤ x ∧ x < (j + 1) * K := by
  rw [Nat.div_eq_iff hK, Nat.add_mul, Nat.one_mul]
  have := Nat.zero_le (j * K)
  constructor <;> rintro ⟨h1, h2⟩ <;> constructor <;> omega

/-! ## Totals over the blocks below a block -/

section Total

variable {G : Type*} [AddCommMonoid G] (own : ℕ → ℕ → G)

/-- Block `j` of level `l` meets the window. -/
def Meets (K a b l j : ℕ) : Prop := block K l a ≤ j ∧ j ≤ block K l b

instance (K a b l j : ℕ) : Decidable (Meets K a b l j) := by
  unfold Meets
  infer_instance

/-- What belongs to block `j` of level `l` and to the blocks below it that meet the window. -/
def total (K a b : ℕ) : ℕ → ℕ → G
  | 0, j => if Meets K a b 0 j then own 0 j else 0
  | l + 1, j =>
    if Meets K a b (l + 1) j then
      own (l + 1) j + ∑ c ∈ Finset.range K, total K a b l (j * K + c)
    else 0

theorem total_of_not_meets {a b : ℕ} (h : ¬ Meets K a b l j) : total own K a b l j = 0 := by
  cases l with
  | zero => rw [total, if_neg h]
  | succ l => rw [total, if_neg h]

/-- What the number after `b` brings to the blocks above it up to level `l`. -/
def addedRight (K b : ℕ) : ℕ → G
  | 0 => own 0 (b + 1)
  | l + 1 => addedRight K b l +
      if Carries K (l + 1) b then own (l + 1) (block K (l + 1) (b + 1)) else 0

/-- What the number `a` takes from the blocks above it up to level `l` when it leaves. -/
def removedLeft (K a : ℕ) : ℕ → G
  | 0 => own 0 a
  | l + 1 => removedLeft K a l +
      if Carries K (l + 1) a then own (l + 1) (block K (l + 1) a) else 0

/-- A block counts for one block of the next level. -/
theorem sum_ite_child (hK : 0 < K) (x : ℕ) (d : G) :
    (∑ c ∈ Finset.range K, if j * K + c = x then d else 0) = if j = x / K then d else 0 := by
  split_ifs with h
  · have hmem := (div_eq_iff_mem hK).1 h.symm
    rw [sum_eq_single (x - j * K)]
    · rw [if_pos (by omega)]
    · intro c _ hne
      rw [if_neg (by omega)]
    · intro hnot
      rw [mem_range] at hnot
      rw [add_mul, one_mul] at hmem
      omega
  · refine sum_eq_zero ?_
    intro c hc
    rw [mem_range] at hc
    rw [if_neg]
    intro heq
    apply h
    symm
    rw [div_eq_iff_mem hK, add_mul, one_mul]
    omega

theorem Meets.parent {a b c : ℕ} (h : Meets K a b l (j * K + c)) (hc : c < K) :
    Meets K a b (l + 1) j := by
  have hj : (j * K + c) / K = j := by
    rw [mul_comm, mul_add_div (by omega), div_eq_of_lt hc, add_zero]
  unfold Meets at h ⊢
  rw [block_succ, block_succ, ← hj]
  exact ⟨Nat.div_le_div_right h.1, Nat.div_le_div_right h.2⟩

theorem total_add_zero {own own' : ℕ → ℕ → G} {a b x : ℕ} {d : G} (hK : 0 < K) (hx : a ≤ x ∧ x ≤ b)
    (hzero : ∀ j, a ≤ j → j ≤ b → own' 0 j = own 0 j + if j = x then d else 0)
    (hsucc : ∀ l j, own' (l + 1) j = own (l + 1) j) (l j : ℕ) :
    total own' K a b l j = total own K a b l j + if j = block K l x then d else 0 := by
  induction l generalizing j with
  | zero =>
    unfold total Meets
    simp only [block_zero]
    split_ifs with h hj hj
    · rw [hzero j h.1 h.2, if_pos hj]
    · rw [hzero j h.1 h.2, if_neg hj]
    · exact absurd (hj ▸ hx) h
    · rw [add_zero]
  | succ l ih =>
    rw [total, total, hsucc]
    by_cases h : Meets K a b (l + 1) j
    · rw [if_pos h, if_pos h, add_assoc, block_succ, ← sum_ite_child hK, ← sum_add_distrib]
      simp only [ih]
    · rw [if_neg h, if_neg h, if_neg, add_zero]
      rintro rfl
      exact h ⟨block_mono K (l + 1) hx.1, block_mono K (l + 1) hx.2⟩

theorem total_congr (own : ℕ → ℕ → G) {own' : ℕ → ℕ → G} {a b : ℕ} (hK : 0 < K) (hab : a ≤ b)
    (hzero : ∀ j, a ≤ j → j ≤ b → own' 0 j = own 0 j)
    (hsucc : ∀ l j, own' (l + 1) j = own (l + 1) j) (l j : ℕ) :
    total own' K a b l j = total own K a b l j := by
  have h := total_add_zero (x := a) (d := 0) hK ⟨le_rfl, hab⟩
    (fun j h1 h2 => by rw [hzero j h1 h2, ite_self, add_zero]) hsucc l j
  rwa [ite_self, add_zero] at h

/-- **One number joins the window**: only the blocks above it change. Its block is new where the
number after `c` begins one. -/
theorem total_join (hK : 0 < K) {a b a' b' x c : ℕ} (added : ℕ → G)
    (hmeets : ∀ l, (∀ j, Meets K a' b' l j ↔ Meets K a b l j ∨ j = block K l x) ∧
      (Meets K a b l (block K l x) ↔ block K l (c + 1) = block K l c))
    (hzero : added 0 = own 0 x) (hsucc : ∀ l, added (l + 1) = added l +
      if Carries K (l + 1) c then own (l + 1) (block K (l + 1) x) else 0) (l j : ℕ) :
    total own K a' b' l j = total own K a b l j + if j = block K l x then added l else 0 := by
  induction l generalizing j with
  | zero =>
    rw [total, total, hzero]
    simp only [(hmeets 0).1]
    by_cases hj : j = block K 0 x
    · have hx := (hmeets 0).2
      rw [block_zero, block_zero, block_zero] at hx
      rw [hj, block_zero, if_pos (.inr rfl), if_neg (by simp [hx]), if_pos rfl, zero_add]
    · simp only [hj, or_false, if_false, add_zero]
  | succ l ih =>
    have hsum : ∑ c ∈ Finset.range K, total own K a' b' l (j * K + c) =
        (∑ c ∈ Finset.range K, total own K a b l (j * K + c)) +
          if j = block K (l + 1) x then added l else 0 := by
      rw [block_succ, ← sum_ite_child hK, ← sum_add_distrib]
      exact sum_congr rfl fun c _ => ih (j * K + c)
    rw [total, total, hsucc, hsum]
    simp only [(hmeets (l + 1)).1]
    by_cases hj : j = block K (l + 1) x
    · subst hj
      rw [if_pos (.inr rfl), if_pos rfl, if_pos rfl]
      by_cases hcarry : Carries K (l + 1) c
      · -- the block is new, and no block below it met the window
        have hmeet := mt (hmeets (l + 1)).2.mp (hcarry.block_succ_index ▸ succ_ne_self _)
        rw [if_neg hmeet, if_pos hcarry, zero_add, sum_eq_zero, zero_add, add_comm]
        exact fun c hc => total_of_not_meets own fun h => hmeet (h.parent (mem_range.mp hc))
      · rw [if_pos ((hmeets (l + 1)).2.mpr (block_succ_index_of_not hcarry)), if_neg hcarry,
          add_zero, add_assoc]
    · simp only [hj, or_false, if_false, add_zero]

/-- **The window grows**: only the blocks of the new number change. -/
theorem total_succ_right (hK : 0 < K) {a b : ℕ} (hab : a ≤ b) (l j : ℕ) :
    total own K a (b + 1) l j =
      total own K a b l j + if j = block K l (b + 1) then addedRight own K b l else 0 := by
  refine total_join own hK (addedRight own K b) (fun l => ?_) rfl (fun _ => rfl) l j
  have h1 := block_mono K l hab
  have h2 := block_succ_index_le K l b
  have h3 := block_mono K l (le_add_right b 1)
  unfold Meets
  exact ⟨by omega, by omega⟩

/-- **The window shrinks**: only the blocks of the number that leaves change. -/
theorem total_succ_left (hK : 0 < K) {a b : ℕ} (hab : a < b) (l j : ℕ) : total own K a b l j =
      total own K (a + 1) b l j + if j = block K l a then removedLeft own K a l else 0 := by
  refine total_join own hK (removedLeft own K a) (fun l => ?_) rfl (fun _ => rfl) l j
  have h1 := block_mono K l (show a + 1 ≤ b from hab)
  have h2 := block_succ_index_le K l a
  have h3 := block_mono K l (le_add_right a 1)
  unfold Meets
  exact ⟨by omega, by omega⟩

end Total

end Verif.Kary
