import Mathlib.Data.List.Basic
import Mathlib.Order.Lattice

/-!
# Counting votes until one candidate reaches a quorum

`Tally.firstToReach q c l` reads the votes `l` on top of the counts `c` and stops at the first
candidate whose count is raised to `q`. A candidate's first vote only opens its counter, so the
quorum is compared from the second vote on. When the quorum is at least two, the scan is right in
both directions, and when the votes are fewer than two quorums its answer does not depend on the
order of the votes (`Tally.firstToReach_eq_some_iff`).
-/

namespace Verif.Tally

open List Function

variable {δ : Type*} [DecidableEq δ]

/-- The first candidate that reaches `q` votes; a counter that is `0` does not exist yet. -/
def firstToReach (q : ℕ) (c : δ → ℕ) : List δ → Option δ
  | [] => none
  | d :: l =>
    if c d = 0 then firstToReach q (Function.update c d 1) l
    else if c d + 1 = q then some d
    else firstToReach q (Function.update c d (c d + 1)) l

theorem count_cons_update (c : δ → ℕ) (d e : δ) (l : List δ) :
    update c d (c d + 1) e + l.count e = c e + (d :: l).count e := by
  rw [count_cons]
  by_cases h : e = d
  · subst h; simp; omega
  · rw [update_of_ne h]
    simp [Ne.symm h]

variable {l : List δ} {q : ℕ}

theorem le_count_of_firstToReach {c : δ → ℕ} {d : δ}
    (h : firstToReach q c l = some d) : q ≤ c d + l.count d := by
  induction l generalizing c with
  | nil => cases h
  | cons e l ih =>
    unfold firstToReach at h
    split_ifs at h with h0 hq
    · have := ih h
      rw [show (1 : ℕ) = c e + 1 by omega, count_cons_update] at this
      exact this
    · have hed : e = d := Option.some.inj h
      subst hed
      rw [count_cons_self]
      omega
    · have := ih h
      rw [count_cons_update] at this
      exact this

theorem count_lt_of_firstToReach_eq_none (hq : 2 ≤ q) {c : δ → ℕ}
    (hc : ∀ d, c d < q) (h : firstToReach q c l = none) (d : δ) : c d + l.count d < q := by
  induction l generalizing c with
  | nil => simpa using hc d
  | cons e l ih =>
    -- the raised counter stays below the quorum in both branches that go on
    have hstep : ∀ d, c e + 1 < q → update c e (c e + 1) d < q := by
      intro d he
      by_cases hde : d = e
      · subst hde; simpa using he
      · rw [update_of_ne hde]; exact hc d
    unfold firstToReach at h
    split_ifs at h with h0 hq'
    · rw [show (1 : ℕ) = c e + 1 by omega] at h
      have := ih (fun d => hstep d (by omega)) h
      rwa [count_cons_update] at this
    · have he := hc e
      have := ih (fun d => hstep d (by omega)) h
      rwa [count_cons_update] at this

theorem count_add_count_le_length {d e : δ} (hne : d ≠ e) (l : List δ) :
    l.count d + l.count e ≤ l.length := by
  induction l with
  | nil => simp
  | cons a l ih =>
    rw [count_cons, count_cons, length_cons]
    by_cases hd : a = d
    · subst hd; simp [hne]; omega
    · simp [hd]; split_ifs <;> omega

/-- Two quorums do not fit into the votes: the scan finds a candidate exactly when the candidate
has a quorum. -/
theorem firstToReach_eq_some_iff (hq : 2 ≤ q) (hl : l.length < 2 * q)
    {d : δ} : firstToReach q (fun _ => 0) l = some d ↔ q ≤ l.count d := by
  constructor
  · intro h
    simpa using le_count_of_firstToReach h
  · intro hd
    rcases h : firstToReach q (fun _ => 0) l with _ | e
    · have := count_lt_of_firstToReach_eq_none hq (fun _ => by omega) h d
      omega
    · have he : q ≤ l.count e := by simpa using le_count_of_firstToReach h
      by_cases hde : d = e
      · rw [hde]
      · have := count_add_count_le_length hde l
        omega

/-! ## Quorums that meet -/

theorem countP_add_countP_le {α : Type*} (p q : α → Bool) (l : List α) :
    l.countP p + l.countP q ≤ l.countP (fun a => p a && q a) + l.length := by
  induction l with
  | nil => simp
  | cons a l ih =>
    rw [countP_cons, countP_cons, countP_cons, length_cons]
    cases hp : p a <;> cases hq : q a <;> simp only [Bool.and_self, Bool.and_true,
      Bool.and_false, if_true, if_false, Bool.false_eq_true] <;> omega

/-- The entry at place `k` of a descending list is the largest bound that more than `k` entries
reach. -/
theorem le_iff_lt_countP {α : Type*} [LinearOrder α] {l : List α} (h : l.Pairwise (· ≥ ·)) {k : ℕ}
    {a : α} (ha : l[k]? = some a) (x : α) : x ≤ a ↔ k < l.countP (x ≤ ·) := by
  induction h generalizing k with
  | nil => cases ha
  | @cons y l hy _ ih =>
    by_cases hx : x ≤ y
    · cases k with
      | zero => cases ha; simp [hx]
      | succ k => simp [hx, ih ha]
    · have hnone : l.countP (x ≤ ·) = 0 := by
        simpa using fun z hz => not_le.mp fun hz' => hx (le_trans hz' (hy z hz))
      have hle : a ≤ y := by
        rcases mem_cons.mp (mem_of_getElem? ha) with rfl | hmem
        · exact le_rfl
        · exact hy a hmem
      simp [hx, hnone, lt_of_le_of_lt hle (not_le.mp hx)]

end Verif.Tally
