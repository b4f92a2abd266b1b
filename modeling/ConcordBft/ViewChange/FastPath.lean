import ConcordBft.ViewChange.Restrictions

/-!
# Restrictions for a fast path committed request

A request that committed on the fast path was signed by `3F + C + 1` replicas, so at least
`F + C + 1` honest ones are among the `2F + 2C + 1` messages of the view change. Their votes reach
the quorum of the safety logic unless a certificate of the same view or a later one is selected,
which is then for the same request. The first vote for a digest is not compared with the quorum:
with `F = C = 0` a single vote is never enough.
-/

namespace ConcordBft

open Verif Verif.Exec List

namespace ViewChangeSafetyLogic

variable (logic : ViewChangeSafetyLogic) {accepts : Accepts}

/-- The request with digest `d` may have committed at `s` in view `v` on the fast path: the
messages of `2F + 2C + 1` replicas, at most `F` of them faulty, where the honest replicas among the
signers of the commit report it and no accepted certificate competes with it. -/
structure FastPathCommitted (accepts : Accepts) (msgs : List (Option ViewChangeMsg))
    (byzantine signed : ℕ → Bool) (LB s : ℤ) (d : Digest) (v : ℕ) : Prop where
  replicas : msgs.length = logic.N.toNat
  received : (msgs.filterMap id).length = 2 * logic.F.toNat + 2 * logic.C.toNat + 1
  valid : ∀ m, some m ∈ msgs → m.checkElements = true
  faulty : ((range msgs.length).countP fun i =>
    byzantine i && (msgs.getD i none).isSome) ≤ logic.F.toNat
  window : LB + 1 ≤ s ∧ s ≤ LB + kWorkWindowSize
  signers : 3 * logic.F.toNat + logic.C.toNat + 1 ≤ (range msgs.length).countP signed
  reported : ∀ i m, signed i = true → byzantine i = false → msgs[i]? = some (some m) →
    ∃ e ∈ m.elements, e.seqNum = s ∧ e.prePrepareDigest = d ∧ (v : ℤ) ≤ e.originView
  noOtherCertificate : ∀ x ∈ slowElems (elementsFor s (msgElements msgs)),
    verifies accepts x = true → (v : ℤ) ≤ x.c.certificateView → x.e.prePrepareDigest = d

/-! ## Votes -/

theorem countP_isSome (msgs : List (Option ViewChangeMsg)) :
    (range msgs.length).countP (fun i => (msgs.getD i none).isSome) =
      (msgs.filterMap id).length := by
  induction msgs with
  | nil => rfl
  | cons m msgs ih =>
    rw [length_cons, range_succ_eq_map, countP_cons, countP_map]
    have hshift : (fun i => ((m :: msgs).getD i none).isSome) ∘ Nat.succ =
        fun i => (msgs.getD i none).isSome := rfl
    rw [hshift, ih]
    cases m <;> rfl

theorem countP_le_votes (s minView : ℤ) (d : Digest) (good : ℕ → Bool)
    (msgs : List (Option ViewChangeMsg)) (hgood : ∀ i m, good i = true → msgs[i]? = some (some m) →
      ∃ e ∈ m.elements, e.seqNum = s ∧ e.prePrepareDigest = d ∧ minView ≤ e.originView) :
    (range msgs.length).countP (fun i => (msgs.getD i none).isSome && good i) ≤
      votes (elementsFor s (msgElements msgs)) d minView := by
  induction msgs generalizing good with
  | nil => exact Nat.zero_le _
  | cons m msgs ih =>
    have htail := ih (fun i => good (i + 1)) fun i m' hi hm' => hgood (i + 1) m' hi hm'
    rw [length_cons, range_succ_eq_map, countP_cons, countP_map]
    have hshift : (fun i => ((m :: msgs).getD i none).isSome && good i) ∘ Nat.succ =
        fun i => (msgs.getD i none).isSome && good (i + 1) := rfl
    rw [hshift]
    cases m with
    | none => exact htail
    | some vc =>
      have hcons : elementsFor s (msgElements (some vc :: msgs)) =
          (vc.elements.filter fun e => decide (e.seqNum = s)) ++
            elementsFor s (msgElements msgs) := elementsFor_cons s vc.elements (msgElements msgs)
      rw [hcons, votes, countP_append, Nat.add_comm]
      refine Nat.add_le_add ?_ htail
      by_cases h0 : good 0 = true
      · obtain ⟨e, he, hs, hd, hv⟩ := hgood 0 vc h0 rfl
        have hpos : 0 < (vc.elements.filter fun e => decide (e.seqNum = s)).countP fun e =>
            decide (e.prePrepareDigest = d ∧ minView ≤ e.originView) := by
          rw [countP_pos_iff]
          exact ⟨e, mem_filter.mpr ⟨he, decide_eq_true hs⟩, decide_eq_true ⟨hd, hv⟩⟩
        split_ifs
        · exact hpos
        · exact Nat.zero_le _
      · have hfalse : good 0 = false := Bool.eq_false_iff.mpr h0
        simp [hfalse]

section Committed

variable {logic} {msgs : List (Option ViewChangeMsg)} {byzantine signed : ℕ → Bool} {LB s : ℤ}
  {d : Digest} {v : ℕ} (H : FastPathCommitted logic accepts msgs byzantine signed LB s d v)

include H

/-- **The signers that are heard**: `F + C + 1` honest votes for `d`. -/
theorem quorum_le_votes :
    logic.F.toNat + logic.C.toNat + 1 ≤ votes (elementsFor s (msgElements msgs)) d v := by
  have hvotes := countP_le_votes s v d (fun i => signed i && !byzantine i) msgs fun i m hi hm => by
      rw [Bool.and_eq_true, Bool.not_eq_true'] at hi
      exact H.reported i m hi.1 hi.2 hm
  have hmeet := Tally.countP_add_countP_le signed (fun i => (msgs.getD i none).isSome)
    (range msgs.length)
  have hsplit := countP_eq_countP_filter_add (range msgs.length)
    (fun i => signed i && (msgs.getD i none).isSome) byzantine
  rw [countP_filter, countP_filter] at hsplit
  have hfaulty : (range msgs.length).countP
      (fun i => signed i && (msgs.getD i none).isSome && byzantine i) ≤ logic.F.toNat := by
    refine le_trans (countP_mono_left fun i _ hi => ?_) H.faulty
    simp only [Bool.and_eq_true] at hi ⊢
    exact ⟨hi.2, hi.1.2⟩
  have hcongr : (range msgs.length).countP
      (fun i => signed i && (msgs.getD i none).isSome && !byzantine i) =
      (range msgs.length).countP
        fun i => (msgs.getD i none).isSome && (signed i && !byzantine i) := by
    congr 1
    funext i
    cases signed i <;> cases byzantine i <;> cases (msgs.getD i none).isSome <;> rfl
  have hsigners := H.signers
  have hN := logic.numReplicas
  have hreplicas := H.replicas
  rw [countP_isSome, H.received, length_range] at hmeet
  omega

theorem quorum_le_votes_elementsMet : logic.fastQuorum ≤ votes (elementsMet msgs LB s) d v := by
  rw [logic.fastQuorum_eq, votes_perm (elementsMet_perm H.valid H.window)]
  exact quorum_le_votes H

theorem elementsMet_ne_nil : elementsMet msgs LB s ≠ [] := by
  intro hnil
  have hvotes := quorum_le_votes_elementsMet H
  rw [hnil, logic.fastQuorum_eq] at hvotes
  exact absurd hvotes (Nat.not_succ_le_zero _)

theorem length_elementsMet_lt : (elementsMet msgs LB s).length < 2 * logic.fastQuorum := by
  have hlen := length_elementsMet_le_length H.valid H.window
  rw [H.received] at hlen
  rw [logic.fastQuorum_eq]
  omega

theorem votes_lt_of_ne {e : Digest} (hne : e ≠ d) {minView : ℤ} (hv : (v : ℤ) ≤ minView) :
    votes (elementsMet msgs LB s) e minView < logic.fastQuorum := by
  have hd := quorum_le_votes_elementsMet H
  have he := votes_anti (elementsMet msgs LB s) e hv
  have hlen := length_fastVotes_lt (length_elementsMet_lt H) v
  have hsum := Tally.count_add_count_le_length hne (fastVotes (elementsMet msgs LB s) v)
  rw [count_fastVotes, count_fastVotes] at hsum
  omega

/-- **A fast path committed request is kept.** The votes of the honest signers select `d`, or a
certificate for `d` does. -/
theorem restrictedTo_of_fastPathCommitted (hFC : 1 ≤ logic.F.toNat + logic.C.toNat)
    {arr : List Restriction} (harr : arr.length = kWorkWindowSize) :
    RestrictedTo logic accepts msgs LB arr s d := by
  rw [restrictedTo_iff_of_ne_nil H.valid H.window harr (elementsMet_ne_nil H)]
  left
  have hq : 2 ≤ logic.fastQuorum := by
    rw [logic.fastQuorum_eq]
    omega
  have hlen := length_elementsMet_lt H
  have hvotes := quorum_le_votes_elementsMet H
  rcases highestVerified_or accepts (elementsMet msgs LB s) with ⟨w, e, hhigh⟩ | hnone
  · rcases lt_or_ge w (v : ℤ) with hwv | hvw
    · rw [selection_eq_some_iff_of_highest hq hlen hhigh]
      exact Or.inl (le_trans hvotes (votes_anti _ _ (by omega)))
    · obtain ⟨x, hx, hver, rfl, rfl⟩ := exists_slowElem_of_firstVerifies H.valid H.window hhigh.1
      obtain rfl := H.noOtherCertificate x hx hver hvw
      exact selection_eq_some_of_highest hq hlen hhigh fun e he => votes_lt_of_ne H he (by omega)
  · rw [selection_eq_some_iff_of_none hq hlen hnone]
    exact le_trans hvotes (votes_anti _ _ (Int.natCast_nonneg v))

end Committed

/-! ## Signers without certificates -/

/-- An element for sequence number 1 with digest 5, pre-prepared in view 0. -/
def prePrepared : Element := ⟨1, 5, 0, none⟩

/-- Messages for view 1 of `n` replicas that report the element, and of `k` that were not heard. -/
def reports (n k : ℕ) : List (Option ViewChangeMsg) :=
  replicate n (some ⟨1, 0, [prePrepared]⟩) ++ replicate k none

theorem mem_reports {n k : ℕ} {m : ViewChangeMsg} (h : some m ∈ reports n k) :
    m = ⟨1, 0, [prePrepared]⟩ := by
  rcases mem_append.mp h with h | h
  · exact Option.some.inj (eq_of_mem_replicate h)
  · cases eq_of_mem_replicate h

/-- All replicas signed, and those that are heard report the request. -/
theorem reports_committed (logic : ViewChangeSafetyLogic) (n k : ℕ)
    (hn : n = 2 * logic.F.toNat + 2 * logic.C.toNat + 1) (hk : k = logic.F.toNat) :
    FastPathCommitted logic acceptsOne (reports n k) (fun _ => false) (fun _ => true) 0 1 5 0 where
  replicas := by
    rw [logic.numReplicas, reports, length_append, length_replicate, length_replicate]
    omega
  received := by
    rw [reports, filterMap_append]
    simp [hn]
  valid := by
    intro m hm
    rw [mem_reports hm]
    decide
  faulty := by simp
  window := by decide
  signers := by
    rw [reports, length_append, length_replicate, length_replicate]
    simp
    omega
  reported := by
    intro i m _ _ hm
    rw [mem_reports (mem_of_getElem? hm)]
    exact ⟨prePrepared, mem_singleton_self _, rfl, rfl, by decide⟩
  noOtherCertificate := by
    intro x hx
    obtain ⟨he, hc⟩ := mem_slowElems.mp hx
    obtain ⟨l, hl, he, -⟩ := mem_elementsFor.mp he
    obtain ⟨m, hm, rfl⟩ := exists_of_mem_msgElements hl
    rw [mem_reports hm] at he
    rw [mem_singleton.mp he] at hc
    cases hc

theorem restrictedTo_five_reports :
    FastPathCommitted sevenReplicas acceptsOne (reports 5 2) (fun _ => false) (fun _ => true)
        0 1 5 0 ∧
      RestrictedTo sevenReplicas acceptsOne (reports 5 2) 0
        (replicate kWorkWindowSize ⟨true, 0⟩) 1 5 := by
  have hcommitted := reports_committed sevenReplicas 5 2 rfl rfl
  refine ⟨hcommitted, ?_⟩
  exact restrictedTo_of_fastPathCommitted hcommitted (by decide) length_replicate

def singleReplica : ViewChangeSafetyLogic := ⟨1, 0, 0, 9, by decide⟩

/-- With a quorum of one, the vote that opens the counter is not compared with the quorum. -/
theorem not_restrictedTo_single_report :
    FastPathCommitted singleReplica acceptsOne (reports 1 0) (fun _ => false) (fun _ => true)
        0 1 5 0 ∧
      ¬ RestrictedTo singleReplica acceptsOne (reports 1 0) 0
        (replicate kWorkWindowSize ⟨true, 0⟩) 1 5 := by
  have hcommitted := reports_committed singleReplica 1 0 rfl rfl
  refine ⟨hcommitted, ?_⟩
  rw [restrictedTo_iff_of_ne_nil hcommitted.valid hcommitted.window length_replicate
    (elementsMet_ne_nil hcommitted)]
  decide

end ViewChangeSafetyLogic

end ConcordBft
