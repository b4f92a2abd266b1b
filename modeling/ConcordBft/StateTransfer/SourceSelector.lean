import ConcordBft.Lib.Run
import ConcordBft.Types
import Mathlib.Data.Finset.Sort

/-!
# The source selector of state transfer

Which replica blocks are fetched from, and who is taken for the primary. A primary is learned from
`PrePrepareMsg`s, of which `minPrePrepareMsgsForPrimaryAwareness` have to name it.
-/

namespace ConcordBft.SourceSelector

open Verif Exec Except List

def NO_REPLICA : ReplicaId := 0xFFFF

structure Config where
  allOtherReplicas : Finset ReplicaId
  minPrePrepareMsgsForPrimaryAwareness : UInt16
  noReplica : NO_REPLICA ∉ allOtherReplicas

structure State where
  preferredReplicas : Finset ReplicaId := ∅
  currentReplica : ReplicaId := NO_REPLICA
  currentPrimary : ReplicaId := NO_REPLICA
  nominatedPrimary : ReplicaId := NO_REPLICA
  nominatedPrimaryCounter : ℕ := 0

variable (cfg : Config) (s : State)

abbrev Config.needed : ℕ := cfg.minPrePrepareMsgsForPrimaryAwareness.toNat

/-- The preferred replicas, or all others if there are none. -/
def checkAndRefillPreferredReplicas (preferred : Finset ReplicaId) : Finset ReplicaId :=
  if preferred = ∅ then
    if s.currentPrimary ≠ NO_REPLICA then cfg.allOtherReplicas.erase s.currentPrimary
    else cfg.allOtherReplicas
  else preferred

def addPreferredReplica (replicaId : ReplicaId) : State :=
  { s with preferredReplicas := insert replicaId s.preferredReplicas }

def removePreferredReplica (replicaId : ReplicaId) : State :=
  { s with
    preferredReplicas := if replicaId ∈ s.preferredReplicas then
      checkAndRefillPreferredReplicas cfg s (s.preferredReplicas.erase replicaId)
    else s.preferredReplicas }

def removeCurrentReplica : State :=
  { s with
    preferredReplicas :=
      checkAndRefillPreferredReplicas cfg s (s.preferredReplicas.erase s.currentReplica)
    currentReplica := NO_REPLICA }

/-- The new source is the preferred replica that the generator draws. -/
def updateSource (random : ℕ) : Exec State := do
  let preferred := checkAndRefillPreferredReplicas cfg s
    (if s.currentReplica ≠ NO_REPLICA then s.preferredReplicas.erase s.currentReplica
    else s.preferredReplicas)
  ensure (0 < preferred.card)
  return { s with
    preferredReplicas := preferred
    currentReplica := (preferred.sort (· ≤ ·)).getD (random % preferred.card) NO_REPLICA }

def resetNominatedPrimary : State :=
  { s with nominatedPrimary := NO_REPLICA, nominatedPrimaryCounter := 0 }

/-- The end of `updateCurrentPrimary`: enough calls have been counted. -/
def replacePrimary (newPrimary : ReplicaId) : State :=
  let preferred := if s.currentPrimary ≠ NO_REPLICA then
    insert s.currentPrimary s.preferredReplicas else s.preferredReplicas
  { removePreferredReplica cfg
      { resetNominatedPrimary s with preferredReplicas := preferred } newPrimary with
    currentPrimary := newPrimary }

def updateCurrentPrimary (newPrimary : ReplicaId) : State :=
  let counter := (s.nominatedPrimaryCounter + 1) % 2 ^ 16
  if s.currentPrimary = newPrimary then s
  else if newPrimary ∉ cfg.allOtherReplicas then resetNominatedPrimary s
  else if s.nominatedPrimary = NO_REPLICA then
    { s with nominatedPrimary := newPrimary, nominatedPrimaryCounter := counter }
  else if newPrimary ≠ s.nominatedPrimary ∧ counter < cfg.needed then resetNominatedPrimary s
  else if counter < cfg.needed then { s with nominatedPrimaryCounter := counter }
  else replacePrimary cfg s newPrimary

inductive Call
  | updateCurrentPrimary (newPrimary : ReplicaId)
  | addPreferredReplica (replicaId : ReplicaId)
  | removeCurrentReplica
  | updateSource (random : ℕ)
  | reset

def step : Call → Exec State
  | .updateCurrentPrimary newPrimary => .ok (updateCurrentPrimary cfg s newPrimary)
  | .addPreferredReplica replicaId => .ok (addPreferredReplica s replicaId)
  | .removeCurrentReplica => .ok (removeCurrentReplica cfg s)
  | .updateSource random => updateSource cfg s random
  | .reset => .ok {}

def Call.named : Call → Option ReplicaId
  | .updateCurrentPrimary newPrimary => some newPrimary
  | _ => none

/-- A new primary is the one that the last calls in a row named, and it is not preferred. -/
def Learned (names : List ReplicaId) (s s' : State) : Prop :=
  s'.currentPrimary ≠ s.currentPrimary → s'.currentPrimary ≠ NO_REPLICA →
    replicate cfg.needed s'.currentPrimary <:+ names ∧
      (2 ≤ cfg.allOtherReplicas.card → s'.currentPrimary ∉ s'.preferredReplicas)

def LearnsFromAgreement (calls : List Call) : Prop :=
  ∀ before call s s', before ++ [call] <+: calls → run (step cfg) {} before = .ok s →
    step cfg s call = .ok s' → Learned cfg ((before ++ [call]).filterMap Call.named) s s'

/-- While a replica is nominated the current primary is not named, and the call that reaches the
threshold names the nominated one. The first primary is not the only preferred replica. -/
def Agreed : Call → Prop
  | .updateCurrentPrimary p =>
    (s.nominatedPrimary ≠ NO_REPLICA → p ≠ s.currentPrimary ∧ (p ∈ cfg.allOtherReplicas →
      p = s.nominatedPrimary ∨ s.nominatedPrimaryCounter + 1 < cfg.needed)) ∧
    (s.currentPrimary = NO_REPLICA → s.preferredReplicas ≠ {p})
  | _ => True

/-- The counter counts the last calls, and they named the nominated replica. -/
structure Counts (names : List ReplicaId) : Prop where
  lt : s.nominatedPrimaryCounter < cfg.needed
  none : s.nominatedPrimary = NO_REPLICA → s.nominatedPrimaryCounter = 0
  named : s.nominatedPrimary ≠ NO_REPLICA →
    replicate s.nominatedPrimaryCounter s.nominatedPrimary <:+ names

variable {cfg s} {s' : State} {p : ReplicaId} {names : List ReplicaId}

theorem counts_zero (hpos : 0 < cfg.needed) (hnone : s.nominatedPrimary = NO_REPLICA)
    (hzero : s.nominatedPrimaryCounter = 0) : Counts cfg s names :=
  ⟨hzero ▸ hpos, fun _ => hzero, fun hne => absurd hnone hne⟩

theorem learned_of_eq (h : s'.currentPrimary = s.currentPrimary) : Learned cfg names s s' :=
  fun hne => absurd h hne

theorem not_mem_removePreferredReplica (h : s.preferredReplicas ≠ {p}) :
    p ∉ (removePreferredReplica cfg s p).preferredReplicas := by
  show p ∉ if p ∈ s.preferredReplicas then _ else _
  split_ifs with hmem
  · have hne : s.preferredReplicas.erase p ≠ ∅ := by
      rw [Ne, Finset.erase_eq_empty_iff, not_or]
      exact ⟨Finset.ne_empty_of_mem hmem, h⟩
    rw [checkAndRefillPreferredReplicas, if_neg hne]
    exact Finset.notMem_erase p _
  · exact hmem

theorem Counts.updateCurrentPrimary (h : Counts cfg s names) (htwo : 2 ≤ cfg.needed)
    (hp : Agreed cfg s (.updateCurrentPrimary p)) :
    Counts cfg (updateCurrentPrimary cfg s p) (names ++ [p]) ∧
      Learned cfg (names ++ [p]) s (updateCurrentPrimary cfg s p) := by
  have hpos : 0 < cfg.needed := Nat.zero_lt_of_lt htwo
  have hcounter : (s.nominatedPrimaryCounter + 1) % 2 ^ 16 = s.nominatedPrimaryCounter + 1 :=
    Nat.mod_eq_of_lt (Nat.lt_of_le_of_lt h.lt (UInt16.toNat_lt _))
  have hrun (hne : s.nominatedPrimary ≠ NO_REPLICA) (hsame : p = s.nominatedPrimary) :
      replicate (s.nominatedPrimaryCounter + 1) p <:+ names ++ [p] := by
    rw [replicate_succ', hsame]
    exact (suffix_append_inj_of_length_eq rfl).mpr ⟨h.named hne, rfl⟩
  unfold SourceSelector.updateCurrentPrimary
  rw [hcounter]
  dsimp only
  by_cases hcur : s.currentPrimary = p
  · rw [if_pos hcur]
    exact ⟨⟨h.lt, h.none, fun hne => absurd hcur.symm (hp.1 hne).1⟩, learned_of_eq rfl⟩
  by_cases hvalid : p ∈ cfg.allOtherReplicas
  swap
  · rw [if_neg hcur, if_pos hvalid]
    exact ⟨counts_zero hpos rfl rfl, learned_of_eq rfl⟩
  rw [if_neg hcur, if_neg (not_not.mpr hvalid)]
  split_ifs with hnone hother hfew
  · refine ⟨⟨?_, fun heq => ?_, fun _ => ?_⟩, learned_of_eq rfl⟩
    · rw [h.none hnone]
      exact htwo
    · exact absurd (heq ▸ hvalid) cfg.noReplica
    · rw [h.none hnone]
      exact suffix_append names [p]
  · exact ⟨counts_zero hpos rfl rfl, learned_of_eq rfl⟩
  · have hsame : p = s.nominatedPrimary := not_not.mp fun hne => hother ⟨hne, hfew⟩
    exact ⟨⟨hfew, fun heq => absurd heq hnone, fun _ => hsame ▸ hrun hnone hsame⟩,
      learned_of_eq rfl⟩
  · have hsame : p = s.nominatedPrimary := ((hp.1 hnone).2 hvalid).resolve_right hfew
    have hlast : cfg.needed = s.nominatedPrimaryCounter + 1 := by
      have := h.lt
      omega
    refine ⟨counts_zero hpos rfl rfl, fun _ _ =>
      ⟨hlast ▸ hrun hnone hsame, fun _ => not_mem_removePreferredReplica ?_⟩⟩
    dsimp only
    split_ifs with hprimary
    · intro heq
      exact hcur (Finset.mem_singleton.mp (heq ▸ Finset.mem_insert_self _ _))
    · exact hp.2 (not_not.mp hprimary)

theorem Counts.step {call : Call} (h : Counts cfg s names) (htwo : 2 ≤ cfg.needed)
    (hcall : Agreed cfg s call) (hs' : step cfg s call = .ok s') :
    Counts cfg s' (names ++ [call].filterMap Call.named) ∧
      Learned cfg (names ++ [call].filterMap Call.named) s s' := by
  have hframe : Counts cfg s (names ++ []) := (append_nil names).symm ▸ h
  cases call with
  | updateCurrentPrimary p => exact ok.inj hs' ▸ h.updateCurrentPrimary htwo hcall
  | addPreferredReplica | removeCurrentReplica =>
    obtain rfl := ok.inj hs'
    exact ⟨⟨hframe.lt, hframe.none, hframe.named⟩, learned_of_eq rfl⟩
  | updateSource random =>
    obtain ⟨-, hs'⟩ := ensure_bind_eq_ok.mp hs'
    obtain rfl := ok.inj hs'
    exact ⟨⟨hframe.lt, hframe.none, hframe.named⟩, learned_of_eq rfl⟩
  | reset =>
    obtain rfl := ok.inj hs'
    exact ⟨counts_zero (Nat.zero_lt_of_lt htwo) rfl rfl, fun _ hne => absurd rfl hne⟩

theorem counts_of_run {before : List Call} (htwo : 2 ≤ cfg.needed)
    (hcalls : EveryStep (step cfg) {} (Agreed cfg) before) (h : run (step cfg) {} before = .ok s) :
    Counts cfg s (before.filterMap Call.named) := by
  induction before using List.reverseRecOn generalizing s with
  | nil => exact ok.inj h ▸ counts_zero (Nat.zero_lt_of_lt htwo) rfl rfl
  | append_singleton before call ih =>
    rw [run_concat] at h
    obtain ⟨s₁, hs₁, hs⟩ := bind_eq_ok.mp h
    rw [filterMap_append]
    exact ((ih hcalls.init hs₁).step htwo (hcalls.last hs₁) hs).1

/-- **The primary is learned from agreement** if the announcements agree. -/
theorem learnsFromAgreement_of_agreed (calls : List Call)
    (htwo : 2 ≤ cfg.minPrePrepareMsgsForPrimaryAwareness.toNat)
    (hcalls : EveryStep (step cfg) {} (Agreed cfg) calls) : LearnsFromAgreement cfg calls := by
  intro before call s s' hpre hs hs'
  have hbefore : EveryStep (step cfg) {} (Agreed cfg) before := fun first call' hfirst =>
    hcalls first call' ((hfirst.trans (prefix_append _ _)).trans hpre)
  rw [filterMap_append]
  exact ((counts_of_run htwo hbefore hs).step htwo (hcalls before call hpre s hs) hs').2

def twoOfThree : Config := ⟨{1, 2, 3}, 2, by decide⟩

theorem learnsFromAgreement_twice : LearnsFromAgreement twoOfThree
    [.updateCurrentPrimary 1, .updateCurrentPrimary 1] := by
  refine learnsFromAgreement_of_agreed _ (by decide) ?_
  iterate 2 refine .cons (show _ ∧ _ by decide) fun s hs => ?_; obtain rfl := ok.inj hs
  exact everyStep_nil _ _ _

/-- One call names the new primary; and the first primary is the only preferred replica. -/
theorem not_learnsFromAgreement :
    ¬ LearnsFromAgreement twoOfThree [.updateCurrentPrimary 1, .updateCurrentPrimary 2] ∧
    ¬ LearnsFromAgreement twoOfThree
      [.addPreferredReplica 1, .updateCurrentPrimary 1, .updateCurrentPrimary 1] := by
  constructor
  · intro h
    have hlearned := h [.updateCurrentPrimary 1] (.updateCurrentPrimary 2) _ _ prefix_rfl rfl rfl
    exact absurd (hlearned (by decide) (by decide)).1 (by decide)
  · intro h
    have hlearned := h [.addPreferredReplica 1, .updateCurrentPrimary 1] (.updateCurrentPrimary 1)
      _ _ prefix_rfl rfl rfl
    exact (hlearned (by decide) (by decide)).2 (by decide) (by decide)

end ConcordBft.SourceSelector
