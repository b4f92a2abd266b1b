import ConcordBft.ViewChange.Restrictions

/-!
# Restrictions with different lower bounds

Two replicas that enter one view may have different stable points, and each computes the
restrictions from its own lower bound. For a sequence number in both windows the two runs meet the
same elements, but not in the same order: an iterator that ends is replaced by the last one, and
which iterators end before `s` depends on the lower bound.

The votes do not depend on the order. The certificates do: of several with one view and one digest
only the first is looked at. So the two entries agree exactly when the certificates that count are
the same, or the higher one makes no difference (`sameRestriction_iff`).
-/

namespace ConcordBft

open Verif Verif.Exec List

namespace ViewChangeSafetyLogic

variable (logic : ViewChangeSafetyLogic) {accepts : Accepts}

/-! ## The messages of a pending view -/

theorem collectStableNumbers_eq {incInVC : ℕ} {v : ℤ} {msgs : List ViewChangeMsg}
    {acc stableNumbers : List ℤ} (h : collectStableNumbers incInVC v msgs acc = .ok stableNumbers) :
    stableNumbers = acc ++ msgs.map ViewChangeMsg.lastStable := by
  induction msgs generalizing v acc with
  | nil =>
    cases h
    simp
  | cons vc msgs ih =>
    unfold collectStableNumbers at h
    obtain ⟨-, h⟩ := ensure_bind_eq_ok.mp h
    split_ifs at h <;> simp [ih h]

variable {msgs : List (Option ViewChangeMsg)}

theorem length_of_calcLBStableForView {lb : ℤ} (h : logic.calcLBStableForView msgs = .ok lb) :
    (msgs.filterMap id).length = 2 * logic.F.toNat + 2 * logic.C.toNat + 1 := by
  unfold calcLBStableForView at h
  obtain ⟨stableNumbers, hcollect, h⟩ := bind_eq_ok.mp h
  obtain ⟨hlen, -⟩ := ensure_bind_eq_ok.mp h
  have hcount := congrArg length (collectStableNumbers_eq hcollect)
  have hN := logic.numReplicas
  have hlt := logic.N.toNat_lt
  rw [decide_eq_true_eq, Nat.mod_eq_of_lt (by omega)] at hlen
  rw [nil_append, length_map] at hcount
  omega

/-- **The stable point of a view** is the highest that more than `F` of the messages reach. -/
theorem le_calcLBStableForView_iff {lb : ℤ} (h : logic.calcLBStableForView msgs = .ok lb) (x : ℤ) :
    x ≤ lb ↔ logic.F.toNat < (msgs.filterMap id).countP fun m => x ≤ m.lastStable := by
  unfold calcLBStableForView at h
  obtain ⟨stableNumbers, hcollect, h⟩ := bind_eq_ok.mp h
  obtain ⟨-, h⟩ := ensure_bind_eq_ok.mp h
  have hsorted : (stableNumbers.mergeSort fun x y => y ≤ x).Pairwise (· ≥ ·) :=
    (pairwise_mergeSort (by simp; omega) (by simp; omega) _).imp (by simp)
  split at h
  · cases h
    rename_i hlb
    rw [Tally.le_iff_lt_countP hsorted hlb x, (mergeSort_perm ..).countP_eq,
      collectStableNumbers_eq hcollect, nil_append, countP_map]
    rfl
  · cases h

def fiveStablePoints : List (Option ViewChangeMsg) :=
  [300, 150, 150, 0, 0].map (fun lastStable => some ⟨1, lastStable, []⟩) ++ [none, none]

theorem le_calcLBStableForView_fiveStablePoints :
    sevenReplicas.calcLBStableForView fiveStablePoints = .ok 150 ∧
      2 < (fiveStablePoints.filterMap id).countP (fun m => 150 ≤ m.lastStable) ∧
      ¬ 2 < (fiveStablePoints.filterMap id).countP fun m => 151 ≤ m.lastStable := by
  have hcollect : collectStableNumbers 5 0 (fiveStablePoints.filterMap id) [] =
      .ok [300, 150, 150, 0, 0] := rfl
  have hsorted : ([300, 150, 150, 0, 0] : List ℤ).mergeSort (fun x y => decide (y ≤ x)) =
      [300, 150, 150, 0, 0] := mergeSort_of_pairwise (by decide)
  have hlb : sevenReplicas.calcLBStableForView fiveStablePoints = .ok 150 := by
    show (collectStableNumbers 5 0 _ [] >>= _) = _
    rw [hcollect, ok_bind, hsorted]
    rfl
  exact ⟨hlb, (le_calcLBStableForView_iff _ hlb 150).mp le_rfl,
    fun h => absurd ((le_calcLBStableForView_iff _ hlb 151).mpr h) (by decide)⟩

/-- The messages of a view that is entered, and two lower bounds from the computed one on with a
sequence number in both windows. -/
structure EnteringView (msgs : List (Option ViewChangeMsg)) (LB₁ LB₂ s : ℤ) : Prop where
  replicas : msgs.length = logic.N.toNat
  valid : ∀ m, some m ∈ msgs → m.checkElements = true
  stable : ∃ lb, logic.calcLBStableForView msgs = .ok lb ∧ lb ≤ LB₁ ∧ lb ≤ LB₂
  window₁ : LB₁ + 1 ≤ s ∧ s ≤ LB₁ + kWorkWindowSize
  window₂ : LB₂ + 1 ≤ s ∧ s ≤ LB₂ + kWorkWindowSize

/-! ## The selections of two orders -/

/-- Nothing is selected, or the null request. -/
def NullSelection (sel : Option Digest) : Prop := sel = none ∨ sel = some logic.nullDigest

/-- The two selections restrict to the same digest or do not restrict. -/
def SameSelection (sel₁ sel₂ : Option Digest) : Prop :=
  sel₁ = sel₂ ∨ (logic.NullSelection sel₁ ∧ logic.NullSelection sel₂)

theorem isNull_restrictionOf (sel : Option Digest) :
    (logic.restrictionOf sel).isNull = true ↔ logic.NullSelection sel := by
  unfold restrictionOf NullSelection
  cases sel <;> simp

theorem sameSelection_comm (sel₁ sel₂ : Option Digest) :
    logic.SameSelection sel₁ sel₂ ↔ logic.SameSelection sel₂ sel₁ := by
  unfold SameSelection
  rw [eq_comm, and_comm]

/-- Over `E` votes count from `minView` on, and `c` is the digest of the certificate that counts. -/
def Counts (accepts : Accepts) (E : List Element) (minView : ℤ) (c : Option Digest) : Prop :=
  (∃ w e, HighestVerified accepts E w e ∧ minView = w + 1 ∧ c = some e) ∨
    ((∀ w e, ¬ FirstVerifies accepts E w e) ∧ minView = 0 ∧ c = none)

/-- What counts from `v` on, with the certificate for `c`, is not missed from the lower `v'` on, with
the certificate for `c'`: some digest has a quorum from `v` on anyway, or has one from `v'` on that
agrees with `c`, or none has one and the two certificates agree. -/
def NotMissed (E : List Element) (v : ℤ) (c : Option Digest) (v' : ℤ) (c' : Option Digest) : Prop :=
  (∃ d, logic.fastQuorum ≤ votes E d v) ∨
    (∃ d, logic.fastQuorum ≤ votes E d v' ∧ logic.SameSelection c (some d)) ∨
    ((∀ d, votes E d v' < logic.fastQuorum) ∧ logic.SameSelection c c')

/-- The order in which votes count from a higher view on is not missed in the other one. -/
def OrdersAgree (accepts : Accepts) (E₁ E₂ : List Element) : Prop :=
  ∃ v₁ c₁ v₂ c₂, Counts accepts E₁ v₁ c₁ ∧ Counts accepts E₂ v₂ c₂ ∧
    (v₂ ≤ v₁ ∧ logic.NotMissed E₂ v₁ c₁ v₂ c₂ ∨ v₁ ≤ v₂ ∧ logic.NotMissed E₁ v₂ c₂ v₁ c₁)

theorem counts_iff {E : List Element} {v : ℤ} {c : Option Digest} : Counts accepts E v c ↔
    v = minRelevantFastView (selectedSlow accepts E) ∧
      c = (selectedSlow accepts E).map fun x => x.e.prePrepareDigest := by
  unfold Counts
  rcases hslow : selectedSlow accepts E with _ | x
  · have hnone := not_firstVerifies_of_selectedSlow hslow
    rw [or_iff_right fun ⟨w, e, h, _⟩ => hnone w e h.1, and_iff_right hnone]
    rfl
  · have hx := highestVerified_of_selectedSlow hslow
    rw [or_iff_left fun h => h.1 _ _ hx.1]
    refine ⟨?_, fun ⟨hv, hc⟩ => ⟨_, _, hx, hv, hc⟩⟩
    rintro ⟨w, e, h, rfl, rfl⟩
    obtain ⟨rfl, rfl⟩ := h.unique hx
    exact ⟨rfl, rfl⟩

theorem exists_counts (accepts : Accepts) (E : List Element) : ∃ v c, Counts accepts E v c :=
  ⟨_, _, counts_iff.mpr ⟨rfl, rfl⟩⟩

section Orders

variable {logic} {E E₁ E₂ : List Element} {v v' : ℤ} {c c' : Option Digest}

theorem ordersAgree_self (E : List Element) : logic.OrdersAgree accepts E E := by
  obtain ⟨v, c, h⟩ := exists_counts accepts E
  refine ⟨v, c, v, c, h, h, .inl ⟨le_rfl, ?_⟩⟩
  by_cases hquorum : ∃ d, logic.fastQuorum ≤ votes E d v
  · exact .inl hquorum
  · push Not at hquorum
    exact .inr (.inr ⟨hquorum, .inl rfl⟩)

variable (hq : 2 ≤ logic.fastQuorum)

include hq

theorem Counts.selection_eq (h : Counts accepts E v c) (hE : E.length < 2 * logic.fastQuorum) :
    (∃ d, logic.fastQuorum ≤ votes E d v ∧ selection logic.fastQuorum accepts E = some d) ∨
      (∀ d, votes E d v < logic.fastQuorum) ∧ selection logic.fastQuorum accepts E = c := by
  obtain ⟨rfl, rfl⟩ := counts_iff.mp h
  by_cases hquorum : ∃ d, logic.fastQuorum ≤
      votes E d (minRelevantFastView (selectedSlow accepts E))
  · obtain ⟨d, hd⟩ := hquorum
    exact .inl ⟨d, hd, (selection_eq_some_iff hq hE).mpr (.inl hd)⟩
  · push Not at hquorum
    refine .inr ⟨hquorum, Option.ext fun d => ?_⟩
    rw [selection_eq_some_iff hq hE, or_iff_right (hquorum d).not_ge, and_iff_left hquorum]

variable (hperm : E₁.Perm E₂) (hlen : E₁.length < 2 * logic.fastQuorum)

include hperm hlen

theorem sameSelection_iff_notMissed (h₁ : Counts accepts E₁ v c) (h₂ : Counts accepts E₂ v' c')
    (hle : v' ≤ v) : logic.SameSelection (selection logic.fastQuorum accepts E₁)
      (selection logic.fastQuorum accepts E₂) ↔ logic.NotMissed E₂ v c v' c' := by
  have hlen₂ : E₂.length < 2 * logic.fastQuorum := hperm.length_eq ▸ hlen
  unfold NotMissed
  rcases h₁.selection_eq hq hlen with ⟨d, hd, hsel⟩ | ⟨hnone, hsel⟩
  · -- the quorum from the higher view on is one from the lower view on
    rw [votes_perm hperm] at hd
    have hsel' : selection logic.fastQuorum accepts E₂ = some d := by
      obtain ⟨rfl, rfl⟩ := counts_iff.mp h₂
      exact (selection_eq_some_iff hq hlen₂).mpr (.inl (hd.trans (votes_anti _ _ hle)))
    exact iff_of_true (.inl (hsel.trans hsel'.symm)) (.inl ⟨d, hd⟩)
  · have hnone : ¬ ∃ d, logic.fastQuorum ≤ votes E₂ d v := by
      rintro ⟨d, hd⟩
      exact (hnone d).not_ge (votes_perm hperm d v ▸ hd)
    rw [hsel, or_iff_right hnone]
    rcases h₂.selection_eq hq hlen₂ with ⟨d, hd, hsel'⟩ | ⟨hnone', hsel'⟩
    · rw [hsel', or_iff_left fun h => (h.1 d).not_ge hd]
      refine ⟨fun h => ⟨d, hd, h⟩, fun ⟨d', hd', h⟩ => ?_⟩
      obtain ⟨rfl, rfl⟩ := counts_iff.mp h₂
      rw [(selection_eq_some_iff hq hlen₂).mpr (.inl hd')] at hsel'
      exact hsel' ▸ h
    · rw [hsel', or_iff_right fun ⟨d, hd, _⟩ => (hnone' d).not_ge hd, and_iff_right hnone']

theorem sameSelection_iff_ordersAgree : logic.SameSelection
    (selection logic.fastQuorum accepts E₁) (selection logic.fastQuorum accepts E₂) ↔
      logic.OrdersAgree accepts E₁ E₂ := by
  have hlen₂ : E₂.length < 2 * logic.fastQuorum := hperm.length_eq ▸ hlen
  have hsecond : ∀ {v c v' c'}, Counts accepts E₁ v c → Counts accepts E₂ v' c' → v ≤ v' →
      (logic.SameSelection (selection logic.fastQuorum accepts E₁)
        (selection logic.fastQuorum accepts E₂) ↔ logic.NotMissed E₁ v' c' v c) :=
    fun h₁ h₂ hle => (logic.sameSelection_comm _ _).trans
      (sameSelection_iff_notMissed hq hperm.symm hlen₂ h₂ h₁ hle)
  obtain ⟨v₁, c₁, h₁⟩ := exists_counts accepts E₁
  obtain ⟨v₂, c₂, h₂⟩ := exists_counts accepts E₂
  constructor
  · intro hsame
    refine ⟨v₁, c₁, v₂, c₂, h₁, h₂, (le_total v₂ v₁).imp (fun hle => ⟨hle, ?_⟩) fun hle => ⟨hle, ?_⟩⟩
    · exact (sameSelection_iff_notMissed hq hperm hlen h₁ h₂ hle).mp hsame
    · exact (hsecond h₁ h₂ hle).mp hsame
  · rintro ⟨w₁, d₁, w₂, d₂, hd₁, hd₂, ⟨hle, h⟩ | ⟨hle, h⟩⟩
    · exact (sameSelection_iff_notMissed hq hperm hlen hd₁ hd₂ hle).mpr h
    · exact (hsecond hd₁ hd₂ hle).mpr h

end Orders

/-! ## The entries of two lower bounds -/

/-- The entries of `s` computed from the two lower bounds have the same flag and, when they
restrict, the same digest. -/
def SameRestriction (accepts : Accepts) (msgs : List (Option ViewChangeMsg)) (LB₁ LB₂ : ℤ)
    (arr₁ arr₂ : List Restriction) (s : ℤ) : Prop :=
  ∃ r₁ r₂ x₁ x₂, logic.computeRestrictions accepts.toVerify msgs LB₁ arr₁ = .ok r₁ ∧
    logic.computeRestrictions accepts.toVerify msgs LB₂ arr₂ = .ok r₂ ∧
    r₁.safetyRestrictions[indexOf LB₁ s]? = some x₁ ∧
    r₂.safetyRestrictions[indexOf LB₂ s]? = some x₂ ∧
    x₁.isNull = x₂.isNull ∧ (x₁.isNull = false → x₁.digest = x₂.digest)

section Entering

variable {logic} {msgs : List (Option ViewChangeMsg)} {LB₁ LB₂ s : ℤ}
  (H : EnteringView logic msgs LB₁ LB₂ s)

include H

theorem EnteringView.elementsMet_perm : (elementsMet msgs LB₁ s).Perm (elementsMet msgs LB₂ s) :=
  (ViewChangeSafetyLogic.elementsMet_perm H.valid H.window₁).trans
    (ViewChangeSafetyLogic.elementsMet_perm H.valid H.window₂).symm

theorem EnteringView.length_lt : (elementsMet msgs LB₁ s).length < 2 * logic.fastQuorum := by
  obtain ⟨lb, hlb, -⟩ := H.stable
  have hlen := length_elementsMet_le_length H.valid H.window₁
  rw [length_of_calcLBStableForView logic hlb] at hlen
  rw [logic.fastQuorum_eq]
  omega

theorem sameRestriction_iff_sameSelection {arr₁ arr₂ : List Restriction}
    (harr₁ : arr₁.length = kWorkWindowSize) (harr₂ : arr₂.length = kWorkWindowSize) :
    SameRestriction logic accepts msgs LB₁ LB₂ arr₁ arr₂ s ↔
      logic.SameSelection (selection logic.fastQuorum accepts (elementsMet msgs LB₁ s))
        (selection logic.fastQuorum accepts (elementsMet msgs LB₂ s)) := by
  obtain ⟨r₁, x₁, hrun₁, hx₁, hent₁, -⟩ :=
    computeRestrictions_spec logic H.valid H.window₁ accepts harr₁
  obtain ⟨r₂, x₂, hrun₂, hx₂, hent₂, -⟩ :=
    computeRestrictions_spec logic H.valid H.window₂ accepts harr₂
  have hnull₁ := hent₁.isNull_eq
  have hnull₂ := hent₂.isNull_eq
  have hdig₁ := hent₁.eq_of_isNull
  have hdig₂ := hent₂.eq_of_isNull
  have hiff : SameRestriction logic accepts msgs LB₁ LB₂ arr₁ arr₂ s ↔
      x₁.isNull = x₂.isNull ∧ (x₁.isNull = false → x₁.digest = x₂.digest) := by
    simp [SameRestriction, hrun₁, hrun₂, hx₁, hx₂]
  rw [hiff]
  unfold SameSelection
  rw [← isNull_restrictionOf, ← isNull_restrictionOf]
  generalize selection logic.fastQuorum accepts (elementsMet msgs LB₁ s) = sel₁ at *
  generalize selection logic.fastQuorum accepts (elementsMet msgs LB₂ s) = sel₂ at *
  constructor
  · rintro ⟨hnull, hdig⟩
    cases hx : x₁.isNull with
    | true =>
      right
      rw [← hnull₁, ← hnull₂, ← hnull, hx]
      exact ⟨rfl, rfl⟩
    | false =>
      left
      have hd := hdig hx
      rw [hdig₁ hx, hdig₂ (hnull ▸ hx)] at hd
      rw [hx] at hnull hnull₁
      rw [← hnull] at hnull₂
      cases sel₁ with
      | none => cases hnull₁
      | some d₁ =>
        cases sel₂ with
        | none => cases hnull₂
        | some d₂ => exact congrArg some hd
  · rintro (h | ⟨h₁, h₂⟩)
    · subst h
      rw [hnull₁, hnull₂]
      refine ⟨rfl, fun hfalse => ?_⟩
      rw [hdig₁ (hnull₁.trans hfalse), hdig₂ (hnull₂.trans hfalse)]
    · rw [hnull₁, hnull₂, h₁, h₂]
      exact ⟨rfl, fun hfalse => absurd hfalse (by decide)⟩

/-- **When two lower bounds give one restriction.** The entries of `s` are the same exactly when
the orders in which the two runs meet its elements agree. -/
theorem sameRestriction_iff {arr₁ arr₂ : List Restriction}
    (harr₁ : arr₁.length = kWorkWindowSize) (harr₂ : arr₂.length = kWorkWindowSize) :
    SameRestriction logic accepts msgs LB₁ LB₂ arr₁ arr₂ s ↔
      logic.OrdersAgree accepts (elementsMet msgs LB₁ s) (elementsMet msgs LB₂ s) := by
  rw [sameRestriction_iff_sameSelection H harr₁ harr₂]
  have hperm := H.elementsMet_perm
  have hlen := H.length_lt
  rcases Nat.lt_or_ge 1 logic.fastQuorum with hq | hq
  · exact sameSelection_iff_ordersAgree hq hperm hlen
  · -- a single message has only one order
    have heq : elementsMet msgs LB₁ s = elementsMet msgs LB₂ s := by
      rcases h : elementsMet msgs LB₁ s with _ | ⟨a, l⟩
      · rw [h] at hperm
        exact hperm.symm.eq_nil.symm
      · rw [h, length_cons] at hlen
        have hl : l = [] := length_eq_zero_iff.mp (by omega)
        rw [h, hl] at hperm
        rw [hl]
        exact singleton_perm.mp hperm
    rw [heq]
    exact iff_of_true (.inl rfl) (ordersAgree_self _)

end Entering

/-! ## A certificate that one order shadows -/

/-- An element for sequence number 151 with digest 5 and a certificate of view 0. -/
def certifiedLate (sig : List UInt8) : Element := ⟨151, 5, 0, some ⟨0, sig⟩⟩

variable (shadowed : Bool)

/-- Five messages for view 1 with stable point 0. The first replica's only element is for sequence
number 1; two replicas have a certificate for 151, the last of them, which is faulty, with another
signature when `shadowed` is set. -/
def lateCertificates : List (Option ViewChangeMsg) :=
  let msg := fun elements => some (⟨1, 0, elements⟩ : ViewChangeMsg)
  [msg [⟨1, 6, 0, none⟩], msg [certifiedLate [1]], msg [], msg [],
    msg [certifiedLate [if shadowed then 0 else 1]], none, none]

theorem enteringView_lateCertificates :
    EnteringView sevenReplicas (lateCertificates shadowed) 0 150 151 where
  replicas := rfl
  valid := by
    intro m hm
    have hall : ∀ m ∈ lateCertificates shadowed, m.all ViewChangeMsg.checkElements = true := by
      cases shadowed <;> decide
    exact hall (some m) hm
  stable := by
    refine ⟨0, ?_, by decide, by decide⟩
    have hcollect : collectStableNumbers 5 0 ((lateCertificates shadowed).filterMap id) [] =
        .ok [0, 0, 0, 0, 0] := rfl
    have hsorted : ([0, 0, 0, 0, 0] : List ℤ).mergeSort (fun x y => decide (y ≤ x)) =
        [0, 0, 0, 0, 0] := mergeSort_of_pairwise (by decide)
    show (collectStableNumbers 5 0 _ [] >>= _) = _
    rw [hcollect, ok_bind, hsorted]
    rfl
  window₁ := by decide
  window₂ := by decide

theorem elementsMet_lateCertificates :
    elementsMet (lateCertificates shadowed) 0 151 =
      [certifiedLate [if shadowed then 0 else 1], certifiedLate [1]] := by
  cases shadowed <;> decide +kernel

theorem elementsMet_lateCertificates_stable :
    elementsMet (lateCertificates shadowed) 150 151 =
      [certifiedLate [1], certifiedLate [if shadowed then 0 else 1]] := by
  cases shadowed <;> decide

theorem sameRestriction_of_one_signature :
    EnteringView sevenReplicas (lateCertificates false) 0 150 151 ∧
      SameRestriction sevenReplicas acceptsOne (lateCertificates false) 0 150
        (List.replicate kWorkWindowSize ⟨true, 0⟩) (List.replicate kWorkWindowSize ⟨true, 0⟩)
        151 := by
  have hentering := enteringView_lateCertificates false
  refine ⟨hentering, ?_⟩
  rw [sameRestriction_iff hentering length_replicate length_replicate,
    elementsMet_lateCertificates, elementsMet_lateCertificates_stable]
  exact ordersAgree_self _

/-- The replica with stable point 0 meets the certificate with the wrong signature first and does
not restrict 151; the replica with stable point 150 restricts it to the certified request. -/
theorem not_sameRestriction_shadowed :
    EnteringView sevenReplicas (lateCertificates true) 0 150 151 ∧
      ¬ SameRestriction sevenReplicas acceptsOne (lateCertificates true) 0 150
        (List.replicate kWorkWindowSize ⟨true, 0⟩) (List.replicate kWorkWindowSize ⟨true, 0⟩)
        151 := by
  have hentering := enteringView_lateCertificates true
  refine ⟨hentering, ?_⟩
  rw [sameRestriction_iff_sameSelection hentering length_replicate length_replicate,
    elementsMet_lateCertificates, elementsMet_lateCertificates_stable]
  unfold SameSelection NullSelection
  decide

end ViewChangeSafetyLogic

end ConcordBft
