import Mathlib.Data.List.Basic

/-!
# Numbers as bytes, the most significant first

`bigEndian n t` are the bytes of a number of `n` bytes. The number is put together again by
shifting every byte to its place (`gather_bigEndian`).
-/

namespace Verif

open List BitVec

/-- The byte of the number at a place, counted from the least significant one. -/
def byteOf {w : ℕ} (t : BitVec w) (i : ℕ) : UInt8 := ⟨(t >>> (i * 8)).setWidth 8⟩

/-- The bytes of a number, the most significant first. -/
def bigEndian (n : ℕ) (t : BitVec (8 * n)) : List UInt8 := (List.range n).reverse.map (byteOf t)

@[simp] theorem length_bigEndian (n : ℕ) (t : BitVec (8 * n)) : (bigEndian n t).length = n := by
  simp [bigEndian]

theorem bigEndian_one (c : UInt8) : bigEndian 1 c.toBitVec = [c] := by
  simp [bigEndian, byteOf, range_succ]

theorem getElem?_bigEndian {n : ℕ} (t : BitVec (8 * n)) {i : ℕ} (hi : i < n) :
    (bigEndian n t)[n - 1 - i]? = some (byteOf t i) := by
  rw [bigEndian, getElem?_map, getElem?_reverse (by simp; omega), length_range,
    getElem?_range (by omega), Option.map_some]
  congr 2
  omega

theorem getLsbD_byteOf {w : ℕ} (t : BitVec w) (i k : ℕ) :
    (byteOf t i).toBitVec.getLsbD k = (decide (k < 8) && t.getLsbD (i * 8 + k)) := by
  simp [byteOf]

/-- The number whose byte at place `i` is `f i`. -/
def gather (n : ℕ) (f : ℕ → UInt8) : BitVec (8 * n) :=
  (List.range n).foldl (fun t i => t ||| ((f i).toBitVec.setWidth (8 * n) <<< (i * 8))) 0

theorem getLsbD_foldl_or {w : ℕ} (l : List ℕ) (g : ℕ → BitVec w) (t : BitVec w) (k : ℕ) :
    (l.foldl (fun t i => t ||| g i) t).getLsbD k =
      (t.getLsbD k || l.any fun i => (g i).getLsbD k) := by
  induction l generalizing t with
  | nil => simp
  | cons i l ih =>
    rw [foldl_cons, ih, getLsbD_or, any_cons, Bool.or_assoc]

theorem getLsbD_gather (n : ℕ) (f : ℕ → UInt8) {k : ℕ} (hk : k < 8 * n) :
    (gather n f).getLsbD k = (f (k / 8)).toBitVec.getLsbD (k % 8) := by
  have hzero : (0 : BitVec (8 * n)).getLsbD k = false := getLsbD_zero
  rw [gather, getLsbD_foldl_or, hzero, Bool.false_or, Bool.eq_iff_iff, any_eq_true]
  have hbit : ∀ i, (((f i).toBitVec.setWidth (8 * n)) <<< (i * 8)).getLsbD k = true ↔
      i * 8 ≤ k ∧ (f i).toBitVec.getLsbD (k - i * 8) = true := by
    intro i
    rw [getLsbD_shiftLeft, getLsbD_setWidth]
    simp [hk]
    omega
  constructor
  · rintro ⟨i, -, hi⟩
    obtain ⟨hle, hi⟩ := (hbit i).mp hi
    have hlt : k - i * 8 < 8 := lt_of_getLsbD hi
    have hdiv : k / 8 = i := by omega
    have hmod : k % 8 = k - i * 8 := by omega
    rw [hdiv, hmod]
    exact hi
  · intro h
    refine ⟨k / 8, mem_range.mpr (by omega), (hbit _).mpr ⟨by omega, ?_⟩⟩
    have hmod : k - k / 8 * 8 = k % 8 := by omega
    rw [hmod]
    exact h

theorem gather_bigEndian {n : ℕ} (t : BitVec (8 * n)) {f : ℕ → UInt8}
    (hf : ∀ i < n, f i = byteOf t i) : gather n f = t := by
  refine eq_of_getLsbD_eq fun k hk => ?_
  rw [getLsbD_gather n f hk, hf (k / 8) (by omega), getLsbD_byteOf]
  have hplace : k / 8 * 8 + k % 8 = k := by omega
  rw [hplace, decide_eq_true (Nat.mod_lt k (by decide)), Bool.true_and]

end Verif
