import ConcordBft.ViewChange.Selection

/-!
# Restrictions for a slow path committed request

When does `computeRestrictions` keep a request that committed on the slow path?

1. The loop over the window writes, at every sequence number, the selection from the elements met
   there, and only its flag once no iterators are left (`restrictionLoop_spec`).
2. So `computeRestrictions` returns on validated messages, and the entry of `s` is a function of
   `elementsMet`, the elements of `s` in the order of the iterators (`computeRestrictions_spec`).
3. With an accepted certificate for `d` in some message, the entry restricts `s` to `d` exactly
   when the certificate's element is the first of its view and digest, or `d` is selected without
   it (`restrictedTo_iff`). An element of a faulty replica that repeats view and digest with
   another signature and stands first takes its place in the set (`not_restrictedTo_shadowed`).
-/

namespace ConcordBft

open Verif Verif.Exec List

namespace ViewChangeSafetyLogic

variable (logic : ViewChangeSafetyLogic) {accepts : Accepts}

/-- The entry that a selection becomes. -/
def restrictionOf (sel : Option Digest) : Restriction :=
  match sel with
  | some d => ⟨d == logic.nullDigest, d⟩
  | none => ⟨true, 0⟩

theorem fastQuorum_eq : logic.fastQuorum = logic.F.toNat + logic.C.toNat + 1 := by
  unfold fastQuorum
  have h := logic.numReplicas
  have hN := logic.N.toNat_lt
  rw [Nat.mod_eq_of_lt (by omega)]

/-! ## The loop over the window -/

variable {lb ub : ℤ} {its : List ElementsIterator} {j : ℕ}

/-- An entry for the elements `E`. Without elements a reset may have written only the flag. -/
def StandsFor (accepts : Accepts) (E : List Element) (x : Restriction) : Prop :=
  x = logic.restrictionOf (selection logic.fastQuorum accepts E) ∨ E = [] ∧ x.isNull = true

section

variable {logic} {E : List Element} {x : Restriction} (h : logic.StandsFor accepts E x)

include h

theorem StandsFor.isNull_eq :
    x.isNull = (logic.restrictionOf (selection logic.fastQuorum accepts E)).isNull := by
  rcases h with rfl | ⟨rfl, h⟩
  · rfl
  · exact h

theorem StandsFor.eq_of_isNull (hx : x.isNull = false) :
    x = logic.restrictionOf (selection logic.fastQuorum accepts E) :=
  h.resolve_right fun h => Bool.false_ne_true (hx.symm.trans h.2)

end

theorem liveIterators_succ_of_nil (h : liveIterators lb ub its j = []) : liveIterators lb ub its
    (j + 1) = [] := by
  rw [liveIterators]
  simp only [h]
  rfl

theorem restrictionLoop_succ (accepts : Accepts) (hw : WellPlaced lb its) (hub : lb + j ≤ ub)
    (n : ℕ) {arr : List Restriction} (hj : j < arr.length) (last : ℤ) :
    ∃ x, logic.StandsFor accepts (elementsFor (lb + j) (liveIterators lb ub its j)) x ∧
      logic.restrictionLoop accepts.toVerify lb ub (n + 1) j (liveIterators lb ub its j) arr last =
        logic.restrictionLoop accepts.toVerify lb ub n (j + 1) (liveIterators lb ub its (j + 1))
          (arr.set j x) (if x.isNull then last else lb + j) := by
  by_cases hne : liveIterators lb ub its j = []
  · -- no iterators are left: the loop only resets
    refine ⟨{ arr[j] with isNull := true }, .inr ⟨by rw [hne]; rfl, rfl⟩, ?_⟩
    rw [restrictionLoop, if_pos (by rw [hne]; rfl), liveIterators_succ_of_nil hne, hne, if_pos rfl,
      modify_eq_set_getElem?, List.getElem?_eq_getElem hj]
    rfl
  · refine ⟨_, .inl rfl, ?_⟩
    have hnonempty : (!(liveIterators lb ub its j).isEmpty) = true := by simpa using hne
    have hpos := (liveIterators_spec ub hw j).1
    obtain ⟨its', hadv, -⟩ := advanceIterators_spec ub hpos
    rw [restrictionLoop, if_neg (by simpa using hne)]
    dsimp only [computeRestrictionsForSeqNum]
    rw [hnonempty, ensure_true, ok_bind, ensure_decide hub, selectRestriction_eq logic hpos, ok_bind,
      hadv, ok_bind, liveIterators]
    simp only [hadv]
    unfold restrictionOf
    rcases selection logic.fastQuorum accepts
      (elementsFor (lb + j) (liveIterators lb ub its j)) with _ | d
    · simp
    · by_cases hd : d = logic.nullDigest
      · simp [hd]
      · simp [hd, beq_eq_false_iff_ne.mpr hd]

/-- What the loops write from index `j` on. -/
structure LoopResult (accepts : Accepts) (lb ub : ℤ) (its : List ElementsIterator) (n j : ℕ)
    (arr arr' : List Restriction) (last last' : ℤ) : Prop where
  before : ∀ i, i < j → arr'[i]? = arr[i]?
  entry : ∀ i, j ≤ i → i < j + n → ∃ x, arr'[i]? = some x ∧
    logic.StandsFor accepts (elementsFor (lb + i) (liveIterators lb ub its i)) x ∧
    (x.isNull = false → lb + i ≤ last')
  last_mono : last' = last ∨ lb + j ≤ last'

theorem restrictionLoop_spec (accepts : Accepts) (ub : ℤ) (hw : WellPlaced lb its) {n : ℕ}
    (arr : List Restriction) (last : ℤ) (harr : arr.length = j + n) (hub : lb + j + n ≤ ub + 1) :
    ∃ arr' last', logic.restrictionLoop accepts.toVerify lb ub n j (liveIterators lb ub its j)
        arr last = .ok (arr', last') ∧
      LoopResult logic accepts lb ub its n j arr arr' last last' := by
  induction n generalizing j arr last with
  | zero => exact ⟨arr, last, rfl, fun _ _ => rfl, fun i h1 h2 => by omega, .inl rfl⟩
  | succ n ih =>
    push_cast at hub
    have hjub : lb + j ≤ ub := by omega
    have hj : j < arr.length := by omega
    obtain ⟨x, hx, hstep⟩ := restrictionLoop_succ logic accepts hw hjub n hj last
    obtain ⟨arr', last', hrun, hres⟩ := ih (j := j + 1) (arr.set j x)
      (if x.isNull then last else lb + j) (by rw [length_set]; omega) (by push_cast; omega)
    have hmono : last' = last ∧ x.isNull ∨ lb + j ≤ last' := by
      have hmono := hres.last_mono
      push_cast at hmono
      split_ifs at hmono with hn
      · exact hmono.imp (fun h => ⟨h, hn⟩) fun h => by omega
      · exact .inr (by omega)
    refine ⟨arr', last', hstep.trans hrun, ?_, ?_, hmono.imp_left And.left⟩
    · intro i hi
      rw [hres.before i (by omega), List.getElem?_set_ne (by omega)]
    · intro i h1 h2
      rcases Nat.lt_or_ge j i with h | h
      · exact hres.entry i h (by omega)
      · obtain rfl : i = j := by omega
        refine ⟨x, ?_, hx, fun hnull => hmono.resolve_left fun h => ?_⟩
        · rw [hres.before i (by omega), List.getElem?_set_self (by omega)]
        · exact Bool.false_ne_true (hnull.symm.trans h.2)

/-! ## The whole computation -/

/-- The index of `s` in the array of restrictions. -/
def indexOf (inLBStableForView s : ℤ) : ℕ := (s - (inLBStableForView + 1)).toNat

/-- The iterators when the loop over the window reaches `s`. -/
def iteratorsAt (msgs : List (Option ViewChangeMsg)) (inLBStableForView s : ℤ) :
    List ElementsIterator :=
  liveIterators (inLBStableForView + 1) (inLBStableForView + kWorkWindowSize)
    (createIterators (inLBStableForView + 1) msgs) (indexOf inLBStableForView s)

/-- The elements of `s` in the order in which the loop over the window meets them. -/
def elementsMet (msgs : List (Option ViewChangeMsg)) (inLBStableForView s : ℤ) : List Element :=
  elementsFor s (iteratorsAt msgs inLBStableForView s)

section Spec

variable {msgs : List (Option ViewChangeMsg)} {LB s : ℤ} {arr : List Restriction}
  (hvalid : ∀ m, some m ∈ msgs → m.checkElements = true)
  (hwin : LB + 1 ≤ s ∧ s ≤ LB + kWorkWindowSize)

include hvalid hwin

theorem elementsMet_perm : (elementsMet msgs LB s).Perm (elementsFor s (msgElements msgs)) := by
  have hw := wellPlaced_createIterators (LB + 1) hvalid
  have hp := (liveIterators_spec (LB + kWorkWindowSize) hw (indexOf LB s)).2 s
    (by unfold indexOf; omega) hwin.2
  rw [elementsFor_createIterators (LB + 1) hvalid hwin.1] at hp
  exact hp

/-- **What `computeRestrictions` writes** for a sequence number of the window. -/
theorem computeRestrictions_spec (accepts : Accepts) (harr : arr.length = kWorkWindowSize) :
    ∃ r x, logic.computeRestrictions accepts.toVerify msgs LB arr = .ok r ∧
      r.safetyRestrictions[indexOf LB s]? = some x ∧
      logic.StandsFor accepts (elementsMet msgs LB s) x ∧
      (x.isNull = false → r.minRestrictedSeqNum ≤ s ∧ s ≤ r.maxRestrictedSeqNum) := by
  have hw := wellPlaced_createIterators (LB + 1) hvalid
  obtain ⟨arr', last', hrun, hres⟩ := restrictionLoop_spec logic accepts (LB + kWorkWindowSize) hw
    (n := kWorkWindowSize) (j := 0) arr 0 (by omega) (by push_cast; omega)
  have hs : LB + 1 + (indexOf LB s : ℤ) = s := by unfold indexOf; omega
  obtain ⟨x, harr', hx, hlast⟩ := hres.entry (indexOf LB s) (by omega) (by unfold indexOf; omega)
  rw [hs] at hx hlast
  have hnil : createIterators (LB + 1) msgs = [] → x.isNull = true := by
    intro h
    have hnil : ∀ j, liveIterators (LB + 1) (LB + kWorkWindowSize)
        (createIterators (LB + 1) msgs) j = [] := by
      intro j
      induction j with
      | zero => exact h
      | succ j ih => exact liveIterators_succ_of_nil ih
    rw [hnil] at hx
    exact hx.isNull_eq
  unfold computeRestrictions
  rw [show liveIterators (LB + 1) (LB + kWorkWindowSize) (createIterators (LB + 1) msgs) 0 =
    createIterators (LB + 1) msgs from rfl] at hrun
  simp only [hrun, ok_bind, pure_eq_ok]
  split_ifs with hempty hpatch
  · refine ⟨_, x, rfl, harr', hx, fun hnull => ?_⟩
    exact absurd (hnull.symm.trans (hnil (isEmpty_iff.mp hempty))) Bool.false_ne_true
  · exact ⟨_, x, rfl, harr', hx, fun hnull => ⟨hwin.1, (hlast hnull).trans hpatch.2⟩⟩
  · exact ⟨_, x, rfl, harr', hx, fun _ => hwin⟩

end Spec

/-! ## A slow path committed request -/

/-- `s` is marked as restricted to `d`, and as non-null unless `d` is the null digest. -/
def RestrictedTo (accepts : Accepts) (msgs : List (Option ViewChangeMsg)) (LB : ℤ)
    (arr : List Restriction) (s : ℤ) (d : Digest) : Prop :=
  ∃ r x, logic.computeRestrictions accepts.toVerify msgs LB arr = .ok r ∧
    r.safetyRestrictions[indexOf LB s]? = some x ∧ x.digest = d ∧
    (d ≠ logic.nullDigest →
      x.isNull = false ∧ r.minRestrictedSeqNum ≤ s ∧ s ≤ r.maxRestrictedSeqNum)

section Valid

variable {logic} {msgs : List (Option ViewChangeMsg)} {LB s : ℤ} {arr : List Restriction}
  {d : Digest} (hvalid : ∀ m, some m ∈ msgs → m.checkElements = true)
  (hwin : LB + 1 ≤ s ∧ s ≤ LB + kWorkWindowSize)

include hvalid hwin

theorem length_elementsMet_le_length :
    (elementsMet msgs LB s).length ≤ (msgs.filterMap id).length := by
  rw [(elementsMet_perm hvalid hwin).length_eq]
  have hlen : (msgElements msgs).length = (msgs.filterMap id).length := length_map _
  rw [← hlen]
  refine length_elementsFor_le ?_
  intro l hl
  obtain ⟨m, hm, rfl⟩ := exists_of_mem_msgElements hl
  exact sorted_of_valid hvalid hm

theorem exists_slowElem_of_firstVerifies {w : ℤ} {e : Digest}
    (h : FirstVerifies accepts (elementsMet msgs LB s) w e) :
    ∃ x ∈ slowElems (elementsFor s (msgElements msgs)), verifies accepts x = true ∧
      x.c.certificateView = w ∧ x.e.prePrepareDigest = e := by
  obtain ⟨x, hx, hver⟩ := h
  obtain ⟨he, hc⟩ := mem_slowElems.mp (mem_of_find?_eq_some hx)
  refine ⟨x, mem_slowElems.mpr ⟨?_, hc⟩, hver, firstFor_spec hx⟩
  exact (elementsMet_perm hvalid hwin).mem_iff.1 he

/-- The entry of a sequence number that some message mentions is its selection. -/
theorem restrictedTo_iff_of_ne_nil (harr : arr.length = kWorkWindowSize)
    (hne : elementsMet msgs LB s ≠ []) :
    RestrictedTo logic accepts msgs LB arr s d ↔
      selection logic.fastQuorum accepts (elementsMet msgs LB s) = some d ∨
      (selection logic.fastQuorum accepts (elementsMet msgs LB s) = none ∧
        d = logic.nullDigest ∧ d = 0) := by
  obtain ⟨r, x, hrun, hentry, hx, hbounds⟩ := computeRestrictions_spec logic hvalid hwin accepts harr
  obtain rfl := hx.resolve_right fun h => hne h.1
  have hiff : RestrictedTo logic accepts msgs LB arr s d ↔
      (logic.restrictionOf (selection logic.fastQuorum accepts
        (elementsMet msgs LB s))).digest = d ∧
      (d ≠ logic.nullDigest → (logic.restrictionOf (selection logic.fastQuorum accepts
        (elementsMet msgs LB s))).isNull = false) := by
    constructor
    · rintro ⟨r', x', hrun', hx', hd, hnull⟩
      rw [hrun, Except.ok.injEq] at hrun'
      subst hrun'
      rw [hentry, Option.some.injEq] at hx'
      subst hx'
      exact ⟨hd, fun hd' => (hnull hd').1⟩
    · rintro ⟨hd, hnull⟩
      exact ⟨r, _, hrun, hentry, hd, fun hd' => ⟨hnull hd', hbounds (hnull hd')⟩⟩
  rw [hiff]
  unfold restrictionOf
  rcases selection logic.fastQuorum accepts (elementsMet msgs LB s) with _ | d'
  · simp only [reduceCtorEq, false_or, true_and, Bool.true_eq_false]
    rw [and_comm, eq_comm]
    exact and_congr_left' not_not
  · simp only [Option.some.injEq, reduceCtorEq, false_and, or_false]
    refine and_iff_left_of_imp ?_
    rintro rfl
    exact beq_eq_false_iff_ne.mpr

end Valid

/-- The request with digest `d` may have committed at `s` in view `v` on the slow path: the
messages of `2F + 2C + 1` replicas, at most `F` of them faulty, where an honest one reports an
accepted certificate for `d` in view `v` and nothing else competes with it. -/
structure SlowPathCommitted (accepts : Accepts) (msgs : List (Option ViewChangeMsg))
    (byzantine : ℕ → Bool) (LB s : ℤ) (d : Digest) (v : ℤ) : Prop where
  replicas : msgs.length = logic.N.toNat
  received : (msgs.filterMap id).length = 2 * logic.F.toNat + 2 * logic.C.toNat + 1
  valid : ∀ m, some m ∈ msgs → m.checkElements = true
  faulty : ((range msgs.length).countP fun i =>
    byzantine i && (msgs.getD i none).isSome) ≤ logic.F.toNat
  window : LB + 1 ≤ s ∧ s ≤ LB + kWorkWindowSize
  certificate : ∃ (i : ℕ) (m : ViewChangeMsg) (x : SlowElem), msgs[i]? = some (some m) ∧
    byzantine i = false ∧ x.e ∈ m.elements ∧ x.e.preparedCertificate = some x.c ∧
    x.e.seqNum = s ∧ x.e.prePrepareDigest = d ∧ x.c.certificateView = v ∧
    verifies accepts x = true
  noOtherCertificate : ∀ x ∈ slowElems (elementsFor s (msgElements msgs)),
    verifies accepts x = true → v ≤ x.c.certificateView → x.e.prePrepareDigest = d
  fewOtherVotes : ∀ d', d' ≠ d → votes (elementsFor s (msgElements msgs)) d' (v + 1) <
    logic.F.toNat + logic.C.toNat + 1

/-- The certificate counts, or `d` is selected without it. The elements `E` are in the order in
which they are met:

1. for some certificate of `d` from view `v` on, the first element with its view and digest
   carries an accepted signature; or
2. the best certificate that is first of its kind and accepted is an older one, and `d` has the
   fast path quorum above it, or no digest has it and the certificate is for `d`; or
3. no certificate is first of its kind and accepted, and `d` has the fast path quorum, or no
   digest has it and `d` is the null digest that an empty entry holds. -/
def CertificateCounts (accepts : Accepts) (E : List Element) (v : ℤ) (d : Digest) : Prop :=
  let quorum := logic.F.toNat + logic.C.toNat + 1
  (∃ w, v ≤ w ∧ FirstVerifies accepts E w d) ∨
  (∃ w e, HighestVerified accepts E w e ∧ w < v ∧
    (quorum ≤ votes E d (w + 1) ∨ (e = d ∧ ∀ e', votes E e' (w + 1) < quorum))) ∨
  ((∀ w e, ¬ FirstVerifies accepts E w e) ∧
    (quorum ≤ votes E d 0 ∨
      (d = logic.nullDigest ∧ d = 0 ∧ ∀ e', votes E e' 0 < quorum)))

section Committed

variable {logic} {msgs : List (Option ViewChangeMsg)} {byzantine : ℕ → Bool} {LB s : ℤ}
  {d : Digest} {v : ℤ} (H : SlowPathCommitted logic accepts msgs byzantine LB s d v)

include H

theorem exists_mem_elementsMet : ∃ x : SlowElem, x.e ∈ elementsMet msgs LB s ∧
    x.e.preparedCertificate = some x.c ∧ x.e.prePrepareDigest = d ∧ x.c.certificateView = v ∧
    verifies accepts x = true := by
  obtain ⟨i, m, x, hi, -, hmem, hc, hseq, hd, hv, hver⟩ := H.certificate
  refine ⟨x, ?_, hc, hd, hv, hver⟩
  rw [(elementsMet_perm H.valid H.window).mem_iff, mem_elementsFor]
  refine ⟨m.elements, mem_map_of_mem (mem_filterMap.mpr ⟨some m, ?_, rfl⟩), hmem, hseq⟩
  exact mem_of_getElem? hi

theorem length_elementsMet_le :
    (elementsMet msgs LB s).length ≤ 2 * logic.F.toNat + 2 * logic.C.toNat + 1 := by
  rw [← H.received]
  exact length_elementsMet_le_length H.valid H.window

theorem digest_of_firstVerifies {w : ℤ} {e : Digest} (hvw : v ≤ w)
    (h : FirstVerifies accepts (elementsMet msgs LB s) w e) : e = d := by
  obtain ⟨x, hx, hver, rfl, rfl⟩ := exists_slowElem_of_firstVerifies H.valid H.window h
  exact H.noOtherCertificate x hx hver hvw

theorem restrictedTo_iff_selection {arr : List Restriction} (harr : arr.length = kWorkWindowSize) :
    RestrictedTo logic accepts msgs LB arr s d ↔
      selection logic.fastQuorum accepts (elementsMet msgs LB s) = some d ∨
      (selection logic.fastQuorum accepts (elementsMet msgs LB s) = none ∧
        d = logic.nullDigest ∧ d = 0) := by
  obtain ⟨x, hx, -⟩ := exists_mem_elementsMet H
  exact restrictedTo_iff_of_ne_nil H.valid H.window harr (ne_nil_of_mem hx)

/-- A single message: its element is the only one, and nothing can stand before it. -/
theorem committed_of_quorum_eq_one (h1 : logic.fastQuorum = 1) :
    FirstVerifies accepts (elementsMet msgs LB s) v d ∧
      selection logic.fastQuorum accepts (elementsMet msgs LB s) = some d := by
  obtain ⟨x, hx, hc, hd, hv, hver⟩ := exists_mem_elementsMet H
  have hlen := length_elementsMet_le H
  rw [logic.fastQuorum_eq] at h1
  have hE : elementsMet msgs LB s = [x.e] := by
    obtain ⟨a, ha⟩ := length_eq_one_iff.mp (show (elementsMet msgs LB s).length = 1 by
      have := length_pos_of_mem hx
      omega)
    rw [ha, mem_singleton] at hx
    rw [ha, hx]
  rw [hE]
  refine ⟨⟨x, ?_, hver⟩, by rw [selection_singleton hc hver, hd]⟩
  unfold firstFor
  rw [show slowElems [x.e] = [x] by simp [slowElems, hc]]
  exact List.find?_cons_of_pos (by simp [hd, hv])

/-- **When a slow path committed request is kept.** `s` is restricted to `d` exactly when the
certificate counts. -/
theorem restrictedTo_iff {arr : List Restriction} (harr : arr.length = kWorkWindowSize) :
    RestrictedTo logic accepts msgs LB arr s d ↔
      CertificateCounts logic accepts (elementsMet msgs LB s) v d := by
  rw [restrictedTo_iff_selection H harr]
  have hquorum := logic.fastQuorum_eq
  rcases Nat.lt_or_ge 1 logic.fastQuorum with hq | hq
  swap
  · obtain ⟨hfirst, hsel⟩ := committed_of_quorum_eq_one H (by omega)
    exact ⟨fun _ => Or.inl ⟨v, Int.le_refl v, hfirst⟩, fun _ => Or.inl hsel⟩
  have hlen : (elementsMet msgs LB s).length < 2 * logic.fastQuorum := by
    have := length_elementsMet_le H
    omega
  unfold CertificateCounts
  rw [← hquorum]
  have hsome : selection logic.fastQuorum accepts _ = some d ↔ _ :=
    selection_eq_some_iff_exists hq hlen
  rw [selection_eq_none_iff hq hlen]
  constructor
  · rintro (hsel | ⟨⟨hnone, h⟩, hnull, hzero⟩)
    · rcases hsome.1 hsel with ⟨w, e, hhigh, hcount⟩ | ⟨hnone, h⟩
      · by_cases hvw : v ≤ w
        · obtain rfl := digest_of_firstVerifies H hvw hhigh.1
          exact Or.inl ⟨w, hvw, hhigh.1⟩
        · exact Or.inr (Or.inl ⟨w, e, hhigh, by omega, hcount⟩)
      · exact Or.inr (Or.inr ⟨hnone, Or.inl h⟩)
    · exact Or.inr (Or.inr ⟨hnone, Or.inr ⟨hnull, hzero, h⟩⟩)
  · rintro (⟨w', hvw', hfirst⟩ | ⟨w, e, hhigh, -, hcount⟩ | ⟨hnone, h | ⟨hnull, hzero, h⟩⟩)
    · -- the highest certificate is at least as high, so it is for `d` too
      obtain ⟨w, e, hhigh⟩ := (highestVerified_or accepts (elementsMet msgs LB s)).resolve_right
        fun hnone => hnone w' d hfirst
      have hvw : v ≤ w := by
        rcases hhigh.2 w' d hfirst with h | ⟨h, -⟩ <;> omega
      obtain rfl := digest_of_firstVerifies H hvw hhigh.1
      refine Or.inl (selection_eq_some_of_highest hq hlen hhigh fun e' he' => ?_)
      calc votes (elementsMet msgs LB s) e' (w + 1)
          = votes (elementsFor s (msgElements msgs)) e' (w + 1) :=
            votes_perm (elementsMet_perm H.valid H.window) _ _
        _ ≤ votes (elementsFor s (msgElements msgs)) e' (v + 1) := votes_anti _ _ (by omega)
        _ < logic.fastQuorum := by rw [hquorum]; exact H.fewOtherVotes e' he'
    · exact Or.inl (hsome.2 (Or.inl ⟨w, e, hhigh, hcount⟩))
    · exact Or.inl (hsome.2 (Or.inr ⟨hnone, h⟩))
    · exact Or.inr ⟨⟨hnone, h⟩, hnull, hzero⟩

end Committed

/-! ## Two elements with one view and one digest -/

/-- Seven replicas, two of which may be faulty. -/
def sevenReplicas : ViewChangeSafetyLogic := ⟨7, 2, 0, 9, by decide⟩

/-- A verifier that accepts one signature. -/
def acceptsOne : Accepts := fun _ _ sig => sig == [1]

/-- An element for sequence number 1 with digest 5 and a certificate of view 0. -/
def certified (sig : List UInt8) : Element := ⟨1, 5, 0, some ⟨0, sig⟩⟩

/-- Five messages for view 1: one has a certificate that verifies, one, from the faulty replica,
the same certificate with another signature. The faulty replica has the lower id when `shadowed`
is set. -/
def twoCertificates (shadowed : Bool) : List (Option ViewChangeMsg) :=
  let msg := fun elements => some (⟨1, 0, elements⟩ : ViewChangeMsg)
  [msg [certified [if shadowed then 0 else 1]], msg [certified [if shadowed then 1 else 0]],
    msg [], msg [], msg [], none, none]

def faultyReplica (shadowed : Bool) : ℕ → Bool := fun i => i == if shadowed then 0 else 1

theorem twoCertificates_committed (shadowed : Bool) :
    SlowPathCommitted sevenReplicas acceptsOne (twoCertificates shadowed)
      (faultyReplica shadowed) 0 1 5 0 where
  replicas := rfl
  received := rfl
  valid := by
    intro m hm
    have hall : ∀ m ∈ twoCertificates shadowed, m.all ViewChangeMsg.checkElements = true := by
      cases shadowed <;> decide
    exact hall (some m) hm
  faulty := by cases shadowed <;> decide
  window := by decide
  certificate := by
    cases shadowed
    · exact ⟨0, ⟨1, 0, [certified [1]]⟩, ⟨certified [1], ⟨0, [1]⟩⟩, rfl, rfl, by decide, rfl, rfl,
        rfl, rfl, rfl⟩
    · exact ⟨1, ⟨1, 0, [certified [1]]⟩, ⟨certified [1], ⟨0, [1]⟩⟩, rfl, rfl, by decide, rfl, rfl,
        rfl, rfl, rfl⟩
  noOtherCertificate := by cases shadowed <;> decide
  fewOtherVotes := by
    intro d' _
    have hlen : (elementsFor 1 (msgElements (twoCertificates shadowed))).length = 2 := by
      cases shadowed <;> rfl
    have hle := countP_le_length (l := elementsFor 1 (msgElements (twoCertificates shadowed)))
      (p := fun e => decide (e.prePrepareDigest = d' ∧ (0 : ℤ) + 1 ≤ e.originView))
    rw [hlen] at hle
    exact Nat.lt_of_le_of_lt hle (by decide)

theorem restrictedTo_unshadowed :
    SlowPathCommitted sevenReplicas acceptsOne (twoCertificates false) (faultyReplica false)
        0 1 5 0 ∧
      RestrictedTo sevenReplicas acceptsOne (twoCertificates false) 0
        (replicate kWorkWindowSize ⟨true, 0⟩) 1 5 := by
  refine ⟨twoCertificates_committed false, ?_⟩
  refine (restrictedTo_iff (twoCertificates_committed false) length_replicate).2 ?_
  exact Or.inl ⟨0, by decide, ⟨certified [1], ⟨0, [1]⟩⟩, by decide, rfl⟩

/-- The certificate with the wrong signature is met first, the set keeps it, and the accepted one
is dropped: the request is not restricted. -/
theorem not_restrictedTo_shadowed :
    SlowPathCommitted sevenReplicas acceptsOne (twoCertificates true) (faultyReplica true)
        0 1 5 0 ∧
      ¬ RestrictedTo sevenReplicas acceptsOne (twoCertificates true) 0
        (replicate kWorkWindowSize ⟨true, 0⟩) 1 5 := by
  refine ⟨twoCertificates_committed true, ?_⟩
  rw [restrictedTo_iff_selection (twoCertificates_committed true) length_replicate]
  decide

end ViewChangeSafetyLogic

end ConcordBft
