import Mathlib.Order.Interval.Finset.Nat
import Mathlib.Data.Finset.Image
import Mathlib.Tactic.Common

/-!
# The principal ids of a replica's configuration

`ReplicasInfo` splits the 16-bit principal ids among consensus replicas, read-only replicas,
client proxies, external clients, client services and internal clients. Every set has a closure
of its own, and the operator is carved out of the external clients in two of them. The sets
partition the ids up to `maxValidPrincipalId` for exactly the configurations of `partition_iff`:
the operator's id is inserted also when there is no operator, and is then a client service's.
-/

namespace ConcordBft

open Finset

/-- The fields that the constructor reads. The number of replicas is asserted; an enabled operator
is one of the external clients. -/
structure ReplicaConfig where
  replicaId : UInt16
  fVal : UInt16
  cVal : UInt16
  numReplicas : UInt16
  numRoReplicas : UInt16
  numOfClientProxies : UInt16
  numOfExternalClients : UInt16
  numOfClientServices : UInt16
  operatorEnabled : Bool
  numReplicas_eq : numReplicas.toNat = 3 * fVal.toNat + 2 * cVal.toNat + 1
  one_le_external : operatorEnabled = true → 1 ≤ numOfExternalClients.toNat

namespace ReplicaConfig

/-- The set a loop over `int` fills: an id is truncated to 16 bits when it is inserted. -/
def ids (start stop : ℕ) : Finset ℕ :=
  (Ico start stop).image (· % 2 ^ 16)

theorem mem_ids {a b x : ℕ} : x ∈ ids a b ↔ ∃ i, (a ≤ i ∧ i < b) ∧ i % 2 ^ 16 = x := by
  simp [ids]

theorem ids_of_le {a b : ℕ} (hb : b ≤ 2 ^ 16) : ids a b = Ico a b := by
  ext x
  rw [mem_ids, mem_Ico]
  constructor
  · rintro ⟨i, hi, rfl⟩
    omega
  · intro hx
    exact ⟨x, hx, Nat.mod_eq_of_lt (by omega)⟩

variable (c : ReplicaConfig)

def firstProxy : ℕ := c.numReplicas.toNat + c.numRoReplicas.toNat

def firstExternal : ℕ := c.firstProxy + c.numOfClientProxies.toNat

def endExternal : ℕ := c.firstExternal + c.numOfExternalClients.toNat

def firstInternal : ℕ := c.endExternal + c.numOfClientServices.toNat

/-- The ids the configuration asks for, before any truncation. -/
def total : ℕ := c.firstInternal + c.numReplicas.toNat

def maxValidPrincipalId : ℕ := (c.total - 1) % 2 ^ 16

def idsOfPeerReplicas : Finset ℕ := (ids 0 c.numReplicas.toNat).erase c.replicaId.toNat

/-- Here the bounds and the loop variable are `uint16_t` themselves. -/
def idsOfPeerROReplicas : Finset ℕ :=
  (Ico c.numReplicas.toNat (c.firstProxy % 2 ^ 16)).erase c.replicaId.toNat

def idsOfClientProxies : Finset ℕ := ids c.firstProxy c.firstExternal

def idsOfExternalClients : Finset ℕ :=
  insert ((c.endExternal + c.numOfClientServices.toNat - 1) % 2 ^ 16)
    (ids c.firstExternal (c.endExternal - c.operatorEnabled.toNat))

def idsOfClientServices : Finset ℕ :=
  let start := c.endExternal - c.operatorEnabled.toNat
  ids start (start + c.numOfClientServices.toNat)

def idsOfInternalClients : Finset ℕ := ids c.firstInternal c.total

/-- `peers` with the replica's own id, if that lies in the range the peers are from. -/
def withOwn (start stop : ℕ) (peers : Finset ℕ) : Finset ℕ :=
  if c.replicaId.toNat ∈ Ico start stop then insert c.replicaId.toNat peers else peers

def principals : List (Finset ℕ) :=
  [c.withOwn 0 c.numReplicas.toNat c.idsOfPeerReplicas,
    c.withOwn c.numReplicas.toNat c.firstProxy c.idsOfPeerROReplicas,
    c.idsOfClientProxies, c.idsOfExternalClients, c.idsOfClientServices, c.idsOfInternalClients]

/-- The sets are pairwise disjoint, and their union is `[0, maxValidPrincipalId]`. -/
def Partition : Prop :=
  c.principals.Pairwise Disjoint ∧
    ∀ x, (∃ s ∈ c.principals, x ∈ s) ↔ x ≤ c.maxValidPrincipalId

theorem withOwn_erase (a b : ℕ) :
    c.withOwn a b ((Ico a b).erase c.replicaId.toNat) = Ico a b := by
  unfold withOwn
  split_ifs with h
  · exact insert_erase h
  · exact erase_eq_of_notMem h

theorem replicas_eq : c.withOwn 0 c.numReplicas.toNat c.idsOfPeerReplicas =
    Ico 0 c.numReplicas.toNat := by
  have := c.numReplicas.toNat_lt
  rw [idsOfPeerReplicas, ids_of_le this.le, withOwn_erase]

theorem numReplicas_pos : 0 < c.numReplicas.toNat := by
  have := c.numReplicas_eq
  omega

/-- The id in front of the internal clients is the operator's, or the last external client's. -/
def Separate : Prop :=
  c.operatorEnabled = true ∨ c.numOfClientServices.toNat = 0 ∧ 0 < c.numOfExternalClients.toNat

section Fits

variable (hfits : c.total ≤ 2 ^ 16)
include hfits

theorem roReplicas_eq : c.withOwn c.numReplicas.toNat c.firstProxy c.idsOfPeerROReplicas =
    Ico c.numReplicas.toNat c.firstProxy := by
  have hpos := c.numReplicas_pos
  have hlt : c.firstProxy < 2 ^ 16 := by
    simp only [total, firstInternal, endExternal, firstExternal] at hfits
    omega
  rw [idsOfPeerROReplicas, Nat.mod_eq_of_lt hlt, withOwn_erase]

theorem principals_eq : c.principals =
    [Ico 0 c.numReplicas.toNat, Ico c.numReplicas.toNat c.firstProxy,
      Ico c.firstProxy c.firstExternal, insert (c.firstInternal - 1)
        (Ico c.firstExternal (c.endExternal - c.operatorEnabled.toNat)),
      Ico (c.endExternal - c.operatorEnabled.toNat)
        (c.endExternal - c.operatorEnabled.toNat + c.numOfClientServices.toNat),
      Ico c.firstInternal c.total] := by
  have hle := hfits
  simp only [total, firstInternal, endExternal] at hle
  rw [principals, replicas_eq, c.roReplicas_eq hfits, idsOfClientProxies, ids_of_le (by omega),
    idsOfExternalClients, ids_of_le (by simp only [endExternal]; omega), idsOfClientServices,
    ids_of_le (by simp only [endExternal]; omega), idsOfInternalClients, ids_of_le hfits,
    Nat.mod_eq_of_lt (by simp only [endExternal]; omega)]
  rfl

theorem partition_of_separate (hsep : c.Separate) : c.Partition := by
  have hpos := c.numReplicas_pos
  have hmax : c.maxValidPrincipalId = c.total - 1 := Nat.mod_eq_of_lt (by omega)
  -- the operator's id is the last external one, behind the client services
  have hop : c.operatorEnabled.toNat = 1 ∧ 1 ≤ c.numOfExternalClients.toNat ∨
      c.operatorEnabled.toNat = 0 ∧ c.numOfClientServices.toNat = 0 ∧
        0 < c.numOfExternalClients.toNat := by
    have := c.one_le_external
    revert hsep
    unfold Separate
    cases hen : c.operatorEnabled <;> simp_all
  rw [Partition, c.principals_eq hfits, hmax]
  simp only [List.pairwise_cons, List.mem_cons, List.not_mem_nil, or_false, forall_eq_or_imp,
    forall_eq, exists_eq_or_imp, exists_eq_left, disjoint_left, mem_insert,
    mem_Ico, total, firstInternal, endExternal, firstExternal, firstProxy]
  refine ⟨?_, fun x => by omega⟩
  refine ⟨⟨?_, ?_, ?_, ?_, ?_⟩, ⟨?_, ?_, ?_, ?_⟩, ⟨?_, ?_, ?_⟩, ⟨?_, ?_⟩, ?_, ?_⟩
  all_goals grind

/-- Without an operator the id in front of the internal clients is inserted in the external
clients' set all the same, and it is a client service's or belongs to an earlier set. -/
theorem separate_of_pairwise (h : c.principals.Pairwise Disjoint) : c.Separate := by
  have hpos := c.numReplicas_pos
  rw [c.principals_eq hfits] at h
  simp only [List.pairwise_cons, List.mem_cons, List.not_mem_nil, or_false, forall_eq_or_imp,
    forall_eq, disjoint_insert_right, disjoint_insert_left, mem_Ico] at h
  obtain ⟨⟨-, -, h03, -⟩, ⟨-, h13, -⟩, ⟨h23, -⟩, ⟨h34, -⟩, -⟩ := h
  by_contra hnot
  have hoff : c.operatorEnabled = false := by
    by_contra hon
    exact hnot (.inl (Bool.eq_true_of_not_eq_false hon))
  simp only [Separate, hoff, Bool.false_eq_true, Bool.toNat_false, false_or, firstInternal,
    endExternal, firstExternal, firstProxy] at hnot h03 h13 h23 h34
  omega

end Fits

/-- The sets behind the read-only replicas' leave no id out, whatever is truncated. -/
theorem exists_later {i : ℕ} (hfirst : c.firstProxy ≤ i) (hi : i < c.total) :
    ∃ s ∈ c.principals.tail, i % 2 ^ 16 ∈ s := by
  have mem_of : ∀ {a b : ℕ}, a ≤ i → i < b → i % 2 ^ 16 ∈ ids a b :=
    fun ha hb => mem_ids.2 ⟨i, ⟨ha, hb⟩, rfl⟩
  have hop := Bool.toNat_le c.operatorEnabled
  simp only [principals, List.tail_cons, List.mem_cons, List.not_mem_nil, or_false,
    exists_eq_or_imp, exists_eq_left, idsOfExternalClients, mem_insert]
  by_cases hproxy : i < c.firstExternal
  · exact .inr (.inl (mem_of hfirst hproxy))
  by_cases hexternal : i < c.endExternal - c.operatorEnabled.toNat
  · exact .inr (.inr (.inl (.inr (mem_of (by omega) hexternal))))
  by_cases hservice :
      i < c.endExternal - c.operatorEnabled.toNat + c.numOfClientServices.toNat
  · exact .inr (.inr (.inr (.inl (mem_of (by omega) hservice))))
  by_cases hinternal : c.firstInternal ≤ i
  · exact .inr (.inr (.inr (.inr (mem_of hinternal hi))))
  · have hlast : i = c.endExternal + c.numOfClientServices.toNat - 1 := by
      simp only [firstInternal] at hinternal
      omega
    exact .inr (.inr (.inl (.inl (by rw [hlast]))))

/-- An id that takes more than 16 bits is truncated to a replica's. -/
theorem fits_of_pairwise (h : c.principals.Pairwise Disjoint) : c.total ≤ 2 ^ 16 := by
  have hpos := c.numReplicas_pos
  have hro := c.numRoReplicas.toNat_lt
  have hn := c.numReplicas.toNat_lt
  rw [principals, List.pairwise_cons, replicas_eq] at h
  by_contra hnot
  obtain ⟨s, hs, hi⟩ := c.exists_later (le_max_right (2 ^ 16) _) (by
    simp only [total, firstInternal, endExternal, firstExternal, firstProxy] at hnot ⊢
    omega)
  refine disjoint_right.1 (h.1 s hs) hi (mem_Ico.2 ⟨Nat.zero_le _, ?_⟩)
  simp only [firstProxy]
  omega

/-- The id sets partition the principal ids exactly when 16 bits are enough for them and the id
in front of the internal clients is the operator's, or that of the last external client. -/
theorem partition_iff : c.Partition ↔ c.total ≤ 2 ^ 16 ∧ c.Separate := by
  constructor
  · intro h
    have hfits := c.fits_of_pairwise h.1
    exact ⟨hfits, c.separate_of_pairwise hfits h.1⟩
  · rintro ⟨hfits, hsep⟩
    exact c.partition_of_separate hfits hsep

theorem single_eq : (1 : UInt16).toNat = 3 * (0 : UInt16).toNat + 2 * (0 : UInt16).toNat + 1 := by
  decide

/-- One replica, one external client and one client service, without an operator. -/
def withService : ReplicaConfig :=
  ⟨0, 0, 0, 1, 0, 0, 1, 1, false, single_eq, by decide⟩

theorem not_partition_withService : ¬withService.Partition := by
  intro h
  rcases withService.separate_of_pairwise (by decide) h.1 with hon | ⟨hno, -⟩
  · exact absurd hon (by decide)
  · exact absurd hno (by decide)

end ReplicaConfig

end ConcordBft
