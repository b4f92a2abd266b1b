import Mathlib.Data.List.AList

/-!
# Versioned stores

The keys that can be reached from each version of a store, and what happens if the keys that left
the reachable ones up to some version are deleted.
-/

namespace Verif

variable {κ : Type} {reach : ℕ → κ → Prop} {version : κ → ℕ} {j m v w : ℕ} {k : κ}

/-- A key belongs to the version that wrote it: it cannot be reached earlier, and becomes reachable
in this version or never. -/
structure VersionedReach (reach : ℕ → κ → Prop) (version : κ → ℕ) : Prop where
  le : ∀ {v k}, reach v k → version k ≤ v
  fresh : ∀ {v k}, reach (v + 1) k → ¬ reach v k → version k = v + 1

/-- A store in which `n` was the latest version gets the version `n' = n + 1`, or none. -/
theorem VersionedReach.extend {reach' : ℕ → κ → Prop} {n n' : ℕ} (h : VersionedReach reach version)
    (hsame : ∀ v, v ≤ n → ∀ k, reach' v k ↔ reach v k) (hn' : n' = n ∨ n' = n + 1)
    (hnone : ∀ v, n' < v → ∀ k, ¬ reach' v k) (hle : n' = n + 1 → ∀ k, reach' n' k → version k ≤ n')
    (hfresh : ∀ k, reach' n' k → ¬ reach' n k → version k = n + 1) :
    VersionedReach reach' version := by
  have hcases : ∀ v, v ≤ n ∨ (v = n' ∧ n' = n + 1) ∨ n' < v := by
    intro v
    omega
  constructor
  · intro v k hk
    rcases hcases v with hv | ⟨rfl, hnew⟩ | hv
    · exact h.le ((hsame v hv k).mp hk)
    · exact hle hnew k hk
    · exact absurd hk (hnone v hv k)
  · intro v k hk hold
    rcases hcases (v + 1) with hv | ⟨hv, hnew⟩ | hv
    · refine h.fresh ((hsame _ hv k).mp hk) ?_
      rwa [← hsame v (Nat.le_of_succ_le hv)]
    · obtain rfl : v = n := by omega
      rw [hv] at hk
      exact hfresh k hk hold
    · exact absurd hk (hnone _ hv k)

/-- The key was reachable until the version `v`. -/
def LeftAfter (reach : ℕ → κ → Prop) (v : ℕ) (k : κ) : Prop := reach v k ∧ ¬ reach (v + 1) k

theorem VersionedReach.not_reach (h : VersionedReach reach version) (hleft : LeftAfter reach j k)
    (hv : j < v) : ¬ reach v k := by
  induction v, hv using Nat.le_induction with
  | base => exact hleft.2
  | succ v hv ih =>
    intro hreach
    have hfresh := h.fresh hreach ih
    have hle := h.le hleft.1
    omega

theorem reach_or_leftAfter (hw : reach w k) (hle : w ≤ m) :
    reach m k ∨ ∃ j, w ≤ j ∧ j < m ∧ LeftAfter reach j k := by
  induction m, hle using Nat.le_induction with
  | base => exact .inl hw
  | succ m hm ih =>
    rcases ih with hreach | ⟨j, hwj, hjm, hleft⟩
    · by_cases hnext : reach (m + 1) k
      · exact .inl hnext
      · exact .inr ⟨m, hm, Nat.lt_succ_self m, hreach, hnext⟩
    · exact .inr ⟨j, hwj, Nat.lt_succ_of_lt hjm, hleft⟩

/-- What is still there after the keys that were left behind before `m` are deleted can be reached
from a later version. -/
theorem exists_reach_of_not_leftAfter (hown : reach (version k) k)
    (hkept : ∀ j, j < m → ¬ LeftAfter reach j k) :
    ∃ v, m ≤ v ∧ reach v k ∧ (v = m ∨ v = version k) := by
  rcases le_total m (version k) with hle | hle
  · exact ⟨version k, hle, hown, .inr rfl⟩
  · rcases reach_or_leftAfter hown hle with hreach | ⟨j, -, hj, hleft⟩
    · exact ⟨m, le_rfl, hreach, .inl rfl⟩
    · exact absurd hleft (hkept j hj)

/-! ## Deleting keys -/

section Filter

variable {α : Type} {β : α → Type} [DecidableEq α]

/-- The entries whose keys satisfy `p`. -/
def filterKeys (p : α → Bool) (s : AList β) : AList β where
  entries := s.entries.filter fun e => p e.1
  nodupKeys := s.nodupKeys.sublist (List.filter_sublist)

theorem lookup_filterKeys (p : α → Bool) (s : AList β) (a : α) :
    (filterKeys p s).lookup a = if p a then s.lookup a else none := by
  show (s.entries.filter fun e => p e.1).dlookup a = if p a then s.entries.dlookup a else none
  induction s.entries with
  | nil => simp
  | cons e entries ih =>
    obtain ⟨b, x⟩ := e
    by_cases hab : b = a
    · subst hab
      by_cases hb : p b
      · simp [hb]
      · rw [List.filter_cons_of_neg (by simpa using hb), ih, if_neg (by simpa using hb),
          if_neg (by simpa using hb)]
    · by_cases hb : p b
      · rw [List.filter_cons_of_pos (by simpa using hb), List.dlookup_cons_ne _ _ (Ne.symm hab),
          List.dlookup_cons_ne _ _ (Ne.symm hab), ih]
      · rw [List.filter_cons_of_neg (by simpa using hb), List.dlookup_cons_ne _ _ (Ne.symm hab), ih]

end Filter

end Verif
