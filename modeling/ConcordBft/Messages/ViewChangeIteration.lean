import ConcordBft.Messages.ViewChangeBounds
import ConcordBft.ViewChange.SafetyLogic

/-!
# Iterating over a checked view change message

The iterators of `ViewChangeMsg.cpp` compute their locations from other header fields than the
checks do. Where the lengths of the message fit, both agree (`inBounds_iff`).
-/

namespace ConcordBft.Wire.ViewChangeMsg

open Verif Verif.Exec ComplaintsIterator Except Nat List

variable {m : ViewChangeMsg}

/-! ## Elements -/

theorem le_elementsEnd (n loc : ℕ) : loc ≤ m.elementsEnd n loc := by
  induction n generalizing loc with
  | zero => exact le_rfl
  | succ n ih =>
    rw [elementsEnd]
    exact le_trans (by have := afterElement_gt (m := m) loc; omega) (ih _)

namespace ElementsIterator

theorem isEnd_of_lt {it : ElementsIterator} (h : it.currLoc < it.endLoc) :
    it.isEnd m = .ok false := by
  unfold isEnd
  rw [if_neg (not_le.mpr h), pure_eq_ok]

theorem isEnd_of_le {it : ElementsIterator} (h : it.endLoc ≤ it.currLoc)
    (hnum : (it.nextElementNum : ℤ) - 1 = m.numberOfElements) : it.isEnd m = .ok true := by
  unfold isEnd
  rw [if_pos h, hnum, beq_self_eq_true, ensure_true, ok_bind, pure_eq_ok]

theorem getAndGoToNext_eq {endLoc loc num : ℕ} (hend : m.afterElement loc ≤ endLoc)
    (hlt : endLoc < 2 ^ 32) (hread : m.ElementRead loc) :
    getAndGoToNext m ⟨endLoc, loc, num⟩ =
      .ok (some loc, ⟨endLoc, m.afterElement loc, (num + 1) % 2 ^ 16⟩) := by
  have hgt := afterElement_gt (m := m) loc
  have h49 : sizeOfElement = 49 := rfl
  have h10 : sizeOfPreparedCertificate = 10 := rfl
  unfold getAndGoToNext
  rw [isEnd_of_lt (show loc < endLoc by omega), ok_bind]
  dsimp only
  rw [if_neg Bool.false_ne_true, ensure_decide (by omega),
    read_eq (show loc + 48 + 1 ≤ m.size from hread.1), ok_bind]
  by_cases hcert : m.hasCertificateAt loc
  · have hafter : m.afterElement loc = loc + 59 + m.certificateSigLengthAt loc := if_pos hcert
    have hloc : (loc + sizeOfElement) % 2 ^ 32 = loc + 49 := by
      rw [h49]
      exact mod_eq_of_lt (by omega)
    rw [if_neg hcert, ensure_decide (by omega), hloc,
      read_eq (show loc + 49 + 8 + 2 ≤ m.size from hread.2 hcert), ok_bind]
    have hlen : m.field (loc + 49 + 8) 2 = m.certificateSigLengthAt loc := rfl
    rw [hlen, ensure_decide (by omega), pure_eq_ok,
      mod_eq_of_lt (a := loc + 49 + _) (by omega), hafter, h10]
    congr 3
    omega
  · have hafter : m.afterElement loc = loc + 49 := if_neg hcert
    rw [if_pos (not_not.mp hcert), pure_eq_ok, hafter, h49, mod_eq_of_lt (by omega)]

theorem drains {n loc num : ℕ} (hlt : m.elementsEnd n loc < 2 ^ 32)
    (hread : ∀ x ∈ m.elementsAt n loc, m.ElementRead x) (hnum : num + n < 2 ^ 16)
    (hcount : (num : ℤ) - 1 + n = m.numberOfElements) :
    Drains (getAndGoToNext m) ⟨m.elementsEnd n loc, loc, num⟩ (m.elementsAt n loc)
      ⟨m.elementsEnd n loc, m.elementsEnd n loc, num + n⟩ := by
  induction n generalizing loc num with
  | zero =>
    apply Drains.nil
    unfold getAndGoToNext
    rw [isEnd_of_le le_rfl (by simpa using hcount), ok_bind]
    rfl
  | succ n ih =>
    rw [elementsAt, forall_mem_cons] at hread
    rw [elementsEnd] at hlt
    rw [elementsEnd, elementsAt]
    apply Drains.cons (getAndGoToNext_eq (le_elementsEnd n _) hlt hread.1)
    rw [mod_eq_of_lt (by omega), show num + (n + 1) = num + 1 + n by omega]
    exact ih hlt hread.2 (by omega) (by push_cast at hcount ⊢; omega)

end ElementsIterator

/-- What `checkElements` says of a message that it accepts. -/
structure ElementsChecked (m : ViewChangeMsg) : Prop where
  taken : ∃ rem rem', ElementsTaken m m.numberOfElements m.elementsBegin m.lastStable rem rem' ∧
    rem < 2 ^ 32
  locationAfterLast : m.locationAfterLast =
    if m.numberOfElements = 0 then 0
    else m.elementsEnd m.numberOfElements m.elementsBegin % 2 ^ 32

theorem elementsChecked_of_checkElements {sigSize : UInt16}
    (h : m.checkElements sigSize = .ok true) : ElementsChecked m := by
  unfold checkElements at h
  obtain ⟨r, hr, h⟩ := bind_eq_ok.mp h
  rcases r with _ | rem'
  · cases h
  have T := elementsTaken_of_loop hr
  refine ⟨⟨_, rem', T, wrapSub_lt _ _ _⟩, ?_⟩
  have h' : (if m.numberOfElements > 0 then
      (pure (m.locationAfterLast == wrapSub 32 m.size (sigSize.toNat + rem')) : Exec Bool)
      else pure (m.locationAfterLast == 0)) = .ok true := h
  split_ifs with hn
  · rw [if_neg (by omega), pure_eq_ok, ok.injEq, beq_iff_eq] at h'
    rw [h']
  · rw [if_pos (by omega), pure_eq_ok, ok.injEq, beq_iff_eq] at h'
    rw [h']
    symm
    apply eq_wrapSub_of_mod_eq (mod_lt _ (by decide))
    have hsum := T.sum
    rw [mod_add_mod, ← wrapSub_add_mod 32 m.size (sigSize.toNat + m.elementsBegin)]
    congr 1
    omega

/-! ## Complaints -/

namespace ComplaintsIterator

variable {it : ComplaintsIterator}

theorem isEnd_of_lt (h : it.currLoc < it.endLoc) : it.isEnd m = .ok false := by
  unfold isEnd
  rw [if_neg (not_le.mpr h), pure_eq_ok]

theorem isEnd_of_le (h : it.endLoc ≤ it.currLoc)
    (hnum : (it.nextComplaintNum : ℤ) - 1 = m.numberOfComplaints) : it.isEnd m = .ok true := by
  unfold isEnd
  rw [if_pos h, hnum, beq_self_eq_true, ensure_true, ok_bind, pure_eq_ok]

theorem getAndGoToNext_of_isEnd (h : it.isEnd m = .ok true) :
    getAndGoToNext m it = .ok (none, it) := by
  unfold getAndGoToNext getCurrent gotoNext
  rw [h, ok_bind, if_pos rfl, pure_eq_ok, ok_bind, ok_bind, if_pos rfl, pure_eq_ok, ok_bind,
    pure_eq_ok]

theorem getAndGoToNext_eq {loc num : ℕ} (h : loc + 4 + m.complaintSizeAt loc ≤ m.size) :
    getAndGoToNext m ⟨m.size, loc, num⟩ =
      .ok (some loc, ⟨m.size, loc + 4 + m.complaintSizeAt loc, (num + 1) % 2 ^ 16⟩) := by
  have hsize := m.size_lt_pow
  have hread : m.read loc 4 = .ok (m.complaintSizeAt loc) := read_eq (by omega)
  have hend : isEnd m ⟨m.size, loc, num⟩ = .ok false := isEnd_of_lt (by show loc < m.size; omega)
  have hrem : wrapSub 32 (m.size - loc) 4 = m.size - loc - 4 := wrapSub_of_le (by omega) (by omega)
  have hcurrent : getCurrent m ⟨m.size, loc, num⟩ = .ok (some loc) := by
    unfold getCurrent
    rw [hend, ok_bind, if_neg Bool.false_ne_true]
    dsimp only
    rw [hread, ok_bind, hrem, ensure_decide (by omega), slice_eq_ok h, ok_bind, pure_eq_ok]
  have hnext : gotoNext m ⟨m.size, loc, num⟩ =
      .ok ⟨m.size, loc + 4 + m.complaintSizeAt loc, (num + 1) % 2 ^ 16⟩ := by
    unfold gotoNext
    rw [hend, ok_bind, if_neg Bool.false_ne_true]
    dsimp only
    rw [hread, ok_bind, hrem, ensure_decide (by omega), pure_eq_ok, mod_eq_of_lt (by omega)]
  unfold getAndGoToNext
  rw [hcurrent, ok_bind, hnext, ok_bind, pure_eq_ok]

theorem drains {n loc num : ℕ} (hend : m.complaintsEnd n loc = m.size)
    (hin : ∀ x ∈ m.complaintsAt n loc, x + 4 + m.complaintSizeAt x ≤ m.size)
    (hnum : num + n < 2 ^ 16) (hcount : (num : ℤ) - 1 + n = m.numberOfComplaints) :
    Drains (getAndGoToNext m) ⟨m.size, loc, num⟩ (m.complaintsAt n loc)
      ⟨m.size, m.size, num + n⟩ := by
  induction n generalizing loc num with
  | zero =>
    have hloc : loc = m.size := hend
    subst hloc
    exact Drains.nil (getAndGoToNext_of_isEnd (isEnd_of_le le_rfl (by simpa using hcount)))
  | succ n ih =>
    rw [complaintsAt, forall_mem_cons] at hin
    rw [complaintsAt]
    apply Drains.cons (getAndGoToNext_eq hin.1)
    rw [mod_eq_of_lt (by omega), show num + (n + 1) = num + 1 + n by omega]
    exact ih hend hin.2 (by omega) (by push_cast at hcount ⊢; omega)

theorem of_getAndGoToNext {it₁ : ComplaintsIterator} {x : Option ℕ}
    (h : getAndGoToNext m it = .ok (x, it₁)) :
    (x = none ∧ (it.nextComplaintNum : ℤ) - 1 = m.numberOfComplaints) ∨
    (x = some it.currLoc ∧ it₁.nextComplaintNum = (it.nextComplaintNum + 1) % 2 ^ 16) := by
  unfold getAndGoToNext getCurrent gotoNext at h
  rcases hisEnd : it.isEnd m with e | _ | _
  · rw [hisEnd] at h
    cases h
  · simp only [hisEnd, ok_bind, if_neg Bool.false_ne_true, bind_eq_ok, pure_eq_ok] at h
    obtain ⟨_, ⟨_, -, _, -, _, -, ⟨⟩⟩, _, ⟨_, -, _, -, ⟨⟩⟩, ⟨⟩⟩ := h
    exact .inr ⟨rfl, rfl⟩
  · rw [hisEnd] at h
    cases h
    unfold isEnd at hisEnd
    split at hisEnd
    · exact .inl ⟨rfl, beq_iff_eq.mp (ensure_bind_eq_ok.mp hisEnd).1⟩
    · cases hisEnd

theorem count_of_drains {it' : ComplaintsIterator} {xs : List ℕ}
    (h : Drains (getAndGoToNext m) it xs it') (hlt : it.nextComplaintNum < 2 ^ 16) :
    (((it.nextComplaintNum + xs.length) % 2 ^ 16 : ℕ) : ℤ) - 1 = m.numberOfComplaints := by
  induction h with
  | nil hnext =>
    rw [length_nil, add_zero, mod_eq_of_lt hlt]
    exact ((of_getAndGoToNext hnext).resolve_right fun h => absurd h.1 (by simp)).2
  | cons hnext _ ih =>
    obtain ⟨-, hnum⟩ := (of_getAndGoToNext hnext).resolve_left fun h => absurd h.1 (by simp)
    have hih := ih (by rw [hnum]; exact mod_lt _ (by decide))
    rw [hnum, mod_add_mod] at hih
    rw [length_cons, show ∀ a b : ℕ, a + (b + 1) = a + 1 + b by omega]
    exact hih

end ComplaintsIterator

/-! ## The checks -/

section Checks

variable {sigSize mySigLength : UInt16}

theorem getBodySize_lt : m.getBodySize < 2 ^ 32 := by
  unfold getBodySize
  split
  · exact mod_lt _ (by decide)
  · exact field_lt _ 4

/-- The elements are checked inside the message exactly if there is room for the signature, or they
stay inside anyway. -/
theorem returns_checkElements_iff (hbegin : m.elementsBegin ≤ m.size) :
    Returns (m.checkElements sigSize) ↔
      (m.numberOfElements = 0 ∨ sigSize.toNat + m.elementsBegin ≤ m.size ∨
        m.ElementsInside m.numberOfElements m.elementsBegin m.lastStable) := by
  have hsig := sigSize.toNat_lt
  have hloop : Returns (m.checkElements sigSize) ↔ Returns (m.elementsLoop m.numberOfElements
      (wrapSub 32 m.size (sigSize.toNat + m.elementsBegin)) m.elementsBegin m.lastStable) := by
    unfold checkElements
    refine returns_bind_left fun r => ?_
    rcases r with _ | rem
    · exact returns_ok _
    · dsimp only
      split <;> exact returns_ok _
  rw [hloop]
  by_cases hroom : sigSize.toNat + m.elementsBegin ≤ m.size
  · refine iff_of_true ?_ (.inr (.inl hroom))
    apply returns_elementsLoop_of_le
    rw [wrapSub_of_le m.size_lt_pow hroom]
    omega
  · rw [returns_elementsLoop_iff (t := 0) (by push_cast; omega) (by omega)
      (by rw [wrapSub_of_lt (by omega) (by omega)]; omega)]
    refine ⟨fun h => .inr (.inr h), ?_⟩
    rintro (hzero | hle | hin)
    · rw [hzero]
      exact eachAfter_nil
    · exact absurd hle hroom
    · exact hin

theorem returns_checkComplaints_iff (h : m.getBodySize + sigSize.toNat ≤ m.size + 2 ^ 32) :
    Returns (m.checkComplaints sigSize) ↔
      m.ComplaintsInside m.numberOfComplaints (m.getBodySize + sigSize.toNat) := by
  rw [← returns_complaintsLoop_iff h]
  unfold checkComplaints
  dsimp only
  rw [add_comm sigSize.toNat]
  refine returns_bind_left fun r => ?_
  rcases r with _ | rem <;> exact returns_ok _

theorem structuralChecks_of_true (h : m.checkElements sigSize = .ok true) :
    m.structuralChecks sigSize = m.checkComplaints sigSize := by
  unfold structuralChecks
  rw [h, ok_bind, if_pos rfl]

/-! ## Accepted messages -/

theorem exists_drains_elements (hbegin : m.elementsBegin ≤ m.size) (E : ElementsChecked m)
    (hafter : m.numberOfElements = 0 ∨ m.elementsBegin < m.locationAfterLast) :
    ∃ it it', ElementsIterator.make m = .ok it ∧
      Drains (ElementsIterator.getAndGoToNext m) it m.elements it' ∧ it'.currLoc = it'.endLoc := by
  obtain ⟨⟨rem, rem', T, hrem⟩, hloc⟩ := E
  have hsize := m.size_lt_pow
  unfold ElementsIterator.make elements
  by_cases hn : m.numberOfElements = 0
  · rw [if_pos hn]
    refine ⟨⟨0, 0, 1⟩, ⟨0, 0, 1⟩, rfl, ?_, rfl⟩
    have hd : Drains (ElementsIterator.getAndGoToNext m) ⟨0, 0, 1⟩ (m.elementsAt 0 0) ⟨0, 0, 1⟩ :=
      ElementsIterator.drains (show m.elementsEnd 0 0 < 2 ^ 32 from Nat.two_pow_pos 32)
        (fun x hx => absurd hx not_mem_nil) (show 1 + 0 < 2 ^ 16 by decide)
        (by rw [hn]; rfl)
    rw [hn]
    exact hd
  · have hlt := hafter.resolve_left hn
    have hsum := T.sum
    rw [if_neg hn] at hloc
    have hend : m.elementsEnd m.numberOfElements m.elementsBegin = m.locationAfterLast := by omega
    have hcount : m.numberOfElements ≤ 300 := by
      have hle := windowEnd_le (m := m)
      unfold kWorkWindowSize at hle
      have := T.count.resolve_left hn
      omega
    have hbegin' : m.elementsBegin % 2 ^ 32 = m.elementsBegin := mod_eq_of_lt (by omega)
    rw [if_neg hn, hbegin']
    dsimp only
    rw [ensure_decide hlt, pure_eq_ok, ← hend]
    exact ⟨_, _, rfl, ElementsIterator.drains (by omega) T.read (by omega) (by push_cast; omega), rfl⟩

theorem exists_drains_complaints (h : m.checkComplaints sigSize = .ok true)
    (hsig : m.numberOfComplaints = 0 ∨ mySigLength = sigSize) (hcount : m.numberOfComplaints < 65535) :
    ∃ it it', make m mySigLength = .ok it ∧
      Drains (getAndGoToNext m) it (m.complaints sigSize) it' ∧ it'.currLoc = it'.endLoc := by
  have hsize := m.size_lt_pow
  unfold make complaints
  split_ifs with hc
  · rw [hc]
    refine ⟨⟨0, 0, 1⟩, ⟨0, 0, 1⟩, rfl, Drains.nil ?_, rfl⟩
    exact getAndGoToNext_of_isEnd (isEnd_of_le le_rfl (by rw [hc]; rfl))
  · obtain rfl := hsig.resolve_left hc
    have hloop : m.complaintsLoop m.numberOfComplaints
        (wrapSub 32 m.size (m.getBodySize + mySigLength.toNat))
        (m.getBodySize + mySigLength.toNat) = .ok (some 0) := by
      unfold checkComplaints at h
      rw [bind_eq_ok, add_comm mySigLength.toNat] at h
      obtain ⟨r, hr, h⟩ := h
      rcases r with _ | rem
      · cases h
      · have hzero : rem = 0 := by
          have h' : (pure (rem == 0) : Exec Bool) = .ok true := h
          rw [pure_eq_ok, ok.injEq, beq_iff_eq] at h'
          exact h'
        rw [hr, hzero]
    obtain ⟨⟨hle, hend⟩, hin⟩ := complaints_of_loop (fun h => absurd h hc) hloop
    -- the first complaint is inside the message, so no location wraps
    obtain ⟨k, hk⟩ := exists_eq_succ_of_ne_zero hc
    have hfirst := hin (m.getBodySize + mySigLength.toNat) (by
      rw [hk, complaintsAt]
      exact mem_cons_self)
    rw [mod_eq_of_lt (by omega)]
    dsimp only
    rw [ensure_decide (by omega), pure_eq_ok]
    exact ⟨_, _, rfl, drains hend hin (by omega) (by push_cast; omega), rfl⟩

theorem iterable_of_lengthsFit (hbegin : m.elementsBegin ≤ m.size)
    (F : m.LengthsFit sigSize mySigLength) (h : m.structuralChecks sigSize = .ok true) :
    m.Iterable sigSize mySigLength := by
  obtain ⟨_ | _, helements, hcomplaints⟩ := bind_eq_ok.mp h
  · cases hcomplaints
  have E := elementsChecked_of_checkElements helements
  obtain ⟨rem, rem', T, -⟩ := E.taken
  refine ⟨exists_drains_elements hbegin E (F.locationAfterLast h), length_elementsAt _ _ _, T.sorted,
    fun loc hloc => ⟨(T.passes loc hloc).1, (T.passes loc hloc).2.trans windowEnd_le⟩,
    exists_drains_complaints hcomplaints (F.sigLength h) (F.numberOfComplaints h),
    length_complaintsAt _ _ _, fun gen => ?_⟩
  unfold getMsgDigest
  rw [slice_eq_ok (by rw [zero_add]; exact F.sizeOfAllComplaints h)]
  exact returns_ok _

theorem lengthsFit_of_inBounds (hbegin : m.elementsBegin ≤ m.size)
    (hsum : m.getBodySize + sigSize.toNat ≤ m.size + 2 ^ 32)
    (h : m.InBounds sigSize mySigLength) : m.LengthsFit sigSize mySigLength := by
  obtain ⟨accepted, hchecks, hiter⟩ := h
  have hiter' : m.structuralChecks sigSize = .ok true → m.Iterable sigSize mySigLength := by
    intro htrue
    rw [hchecks, ok.injEq] at htrue
    exact hiter htrue
  have hreturns : Returns (m.checkElements sigSize) := by
    unfold structuralChecks at hchecks
    obtain ⟨b, hb, -⟩ := bind_eq_ok.mp hchecks
    exact ⟨b, hb⟩
  refine ⟨(returns_checkElements_iff hbegin).mp hreturns, fun hel => ?_, fun htrue => ?_,
    fun htrue => ?_, fun htrue => ?_, fun htrue => ?_⟩
  · rw [structuralChecks_of_true hel] at hchecks
    exact (returns_checkComplaints_iff hsum).mp ⟨_, hchecks⟩
  · obtain ⟨it, it', hmake, -⟩ := (hiter' htrue).elements
    unfold ElementsIterator.make at hmake
    by_cases hn : m.numberOfElements = 0
    · exact .inl hn
    · rw [if_neg hn, ensure_bind_eq_ok, decide_eq_true_eq,
        mod_eq_of_lt (lt_of_le_of_lt hbegin m.size_lt_pow)] at hmake
      exact .inr hmake.1
  · have hgen : Returns (m.getMsgDigest ⟨fun _ => replicate 32 0, fun _ => by simp⟩) :=
      (hiter' htrue).digest _
    unfold getMsgDigest at hgen
    have hslice : Returns (slice m.bytes 0 ((m.getBodySize + m.sizeOfAllComplaints) % 2 ^ 32)) := by
      rcases hs : slice m.bytes 0 ((m.getBodySize + m.sizeOfAllComplaints) % 2 ^ 32) with e | a
      · rw [hs] at hgen
        exact absurd hgen (not_returns_error e)
      · exact returns_ok a
    rw [returns_slice, zero_add] at hslice
    exact hslice
  · by_cases hc : m.numberOfComplaints = 0
    · exact .inl hc
    · right
      obtain ⟨it, it', hmake, hdrains, -⟩ := (hiter' htrue).complaints
      obtain ⟨k, hk⟩ := exists_eq_succ_of_ne_zero hc
      unfold complaints at hdrains
      rw [hk, complaintsAt] at hdrains
      cases hdrains with
      | cons hnext _ =>
        obtain ⟨hcurr, -⟩ := (of_getAndGoToNext hnext).resolve_left fun h => absurd h.1 (by simp)
        unfold make at hmake
        rw [if_neg hc, ensure_bind_eq_ok] at hmake
        have hit := ok.inj hmake.2
        have hbody := getBodySize_lt (m := m)
        have hmy := mySigLength.toNat_lt
        have hsig := sigSize.toNat_lt
        rw [← hit] at hcurr
        have hcurr' := Option.some.inj hcurr
        dsimp only at hcurr'
        apply UInt16.toNat_inj.mp
        omega
  · obtain ⟨it, it', hmake, hdrains, -⟩ := (hiter' htrue).complaints
    have hlt : m.numberOfComplaints < 2 ^ 16 := field_lt _ 2
    have hnum : it.nextComplaintNum = 1 := by
      unfold make at hmake
      split at hmake
      · cases hmake
        rfl
      · rw [ensure_bind_eq_ok] at hmake
        rw [← ok.inj hmake.2]
    have hcount := count_of_drains hdrains (by rw [hnum]; decide)
    rw [hnum, (hiter' htrue).length_complaints] at hcount
    omega

theorem inBounds_of_lengthsFit (hbegin : m.elementsBegin ≤ m.size)
    (hsum : m.getBodySize + sigSize.toNat ≤ m.size + 2 ^ 32)
    (F : m.LengthsFit sigSize mySigLength) : m.InBounds sigSize mySigLength := by
  obtain ⟨b, hb⟩ := (returns_checkElements_iff hbegin).mpr F.elements
  cases b with
  | false =>
    refine ⟨false, ?_, fun h => absurd h Bool.false_ne_true⟩
    rw [structuralChecks, hb, ok_bind, if_neg Bool.false_ne_true, pure_eq_ok]
  | true =>
    obtain ⟨b, hb'⟩ := (returns_checkComplaints_iff hsum).mpr (F.complaints hb)
    have hchecks : m.structuralChecks sigSize = .ok b := by rw [structuralChecks_of_true hb, hb']
    refine ⟨b, hchecks, fun htrue => ?_⟩
    rw [htrue] at hchecks
    exact iterable_of_lengthsFit hbegin F hchecks

theorem of_passesSizeChecks (h : m.passesSizeChecks sigSize = true) :
    m.elementsBegin ≤ m.size ∧ m.getBodySize + sigSize.toNat ≤ m.size + 2 ^ 32 := by
  unfold passesSizeChecks at h
  rw [Bool.and_eq_true, decide_eq_true_eq, decide_eq_true_eq] at h
  have hbody := getBodySize_lt (m := m)
  have hsig := sigSize.toNat_lt
  exact ⟨h.1, by omega⟩

/-- **The checks of a view change message** that passed the size checks stay inside it, and what
they accept is iterable, exactly if its lengths fit. -/
theorem inBounds_iff (h : m.passesSizeChecks sigSize = true) :
    m.InBounds sigSize mySigLength ↔ m.LengthsFit sigSize mySigLength := by
  obtain ⟨hbegin, hsum⟩ := of_passesSizeChecks h
  exact ⟨lengthsFit_of_inBounds hbegin hsum, inBounds_of_lengthsFit hbegin hsum⟩

/-- `validate` fails before it looks at elements and complaints, or makes both checks. -/
theorem validate_eq (info : ReplicasInfo) (sigs : SigManager) :
    (m.passesHeaderChecks info sigs = false ∧ ∃ e, m.validate info sigs = .ok (.error e)) ∨
    (m.passesHeaderChecks info sigs = true ∧ m.validate info sigs = (do
      if !(← m.checkElements (sigs.getSigLength m.idOfGeneratedReplica)) then
        return .error .elements
      if !(← m.checkComplaints (sigs.getSigLength m.idOfGeneratedReplica)) then
        return .error .complaints
      return .ok ())) := by
  unfold validate passesHeaderChecks passesSizeChecks
  dsimp only
  split_ifs with hbasic hsize hsig
  · exact .inl ⟨by grind, _, rfl⟩
  · exact .inl ⟨by grind, _, rfl⟩
  · exact .inl ⟨by grind, _, rfl⟩
  · exact .inr ⟨by grind, rfl⟩

/-- `validate` stays inside the message, and what it accepts is iterable, exactly if the lengths fit
or the checks before them fail. -/
theorem validate_inBounds_iff (info : ReplicasInfo) (sigs : SigManager) :
    (∃ r, m.validate info sigs = .ok r ∧ (r = .ok () →
      m.Iterable (sigs.getSigLength m.idOfGeneratedReplica) mySigLength)) ↔
    (m.passesHeaderChecks info sigs = true →
      m.LengthsFit (sigs.getSigLength m.idOfGeneratedReplica) mySigLength) := by
  rcases m.validate_eq info sigs with ⟨hfalse, e, he⟩ | ⟨htrue, heq⟩
  · simp [hfalse, he]
  · have hsize : m.passesSizeChecks (sigs.getSigLength m.idOfGeneratedReplica) = true := by
      simp only [passesHeaderChecks, Bool.and_eq_true] at htrue
      exact htrue.1.2
    obtain ⟨hbegin, hsum⟩ := of_passesSizeChecks hsize
    rw [heq]
    refine Iff.trans ?_ ((Iff.intro (lengthsFit_of_inBounds hbegin hsum)
      (inBounds_of_lengthsFit hbegin hsum)).trans (imp_iff_right htrue).symm)
    unfold InBounds structuralChecks
    rcases m.checkElements _ with e | _ | _
    · simp
    · simp
    · rcases m.checkComplaints _ with e | _ | _ <;> simp

/-! ## Messages -/

/-- A header with small numbers in the fields that the checks read, for view 1. -/
def smallHeader (numberOfComplaints sizeOfAllComplaints numberOfElements locationAfterLast : UInt8) :
    List UInt8 :=
  replicate 8 0 ++ 1 :: replicate 23 0 ++ [numberOfComplaints, 0] ++
    [sizeOfAllComplaints, 0, 0, 0] ++ [numberOfElements, 0] ++ [locationAfterLast, 0, 0, 0]

/-- Two elements, the second with a certificate, 4 bytes of signature and two complaints of 28
bytes. -/
def smallMsg : ViewChangeMsg :=
  ⟨smallHeader 2 64 2 153 ++ 1 :: replicate 48 0 ++
    (2 :: replicate 47 0 ++ 1 :: replicate 8 0 ++ [1, 0, 7]) ++ replicate 4 0 ++
    28 :: replicate 31 0 ++ 28 :: replicate 31 0, by decide +kernel⟩

theorem lengthsFit_smallMsg : smallMsg.LengthsFit 4 4 where
  elements := .inr (.inl (by decide +kernel))
  complaints _ pre x post h _ := by
    have hall : ∀ x ∈ smallMsg.complaints 4, x ≤ smallMsg.size := by decide +kernel
    rw [complaints, h] at hall
    exact .inl (hall x mem_append_cons_self)
  locationAfterLast _ := .inr (by decide +kernel)
  sizeOfAllComplaints _ := by decide +kernel
  sigLength _ := .inr rfl
  numberOfComplaints _ := by decide +kernel

theorem inBounds_smallMsg :
    smallMsg.passesSizeChecks 4 = true ∧ smallMsg.LengthsFit 4 4 ∧ smallMsg.InBounds 4 4 := by
  have h : smallMsg.passesSizeChecks 4 = true := by decide +kernel
  exact ⟨h, lengthsFit_smallMsg, (inBounds_iff h).mpr lengthsFit_smallMsg⟩

/-- A location after the elements that lies inside the header, before an element that is not
there. -/
def missingElement : ViewChangeMsg := ⟨smallHeader 0 0 1 1, by decide⟩

/-- A complaint that says it is longer than the message, and a second one. -/
def longComplaint : ViewChangeMsg :=
  ⟨smallHeader 2 0 0 0 ++ replicate 4 0 ++ 100 :: replicate 27 0, by decide⟩

/-- No complaints, of 100 bytes. -/
def oversizedComplaints : ViewChangeMsg := ⟨smallHeader 0 100 0 0 ++ replicate 4 0, by decide⟩

/-- Three messages that pass the size checks: the check of the elements reads past the first, the
check of the complaints past the second, and the third is accepted and digested past its end. -/
theorem not_inBounds_small :
    (missingElement.passesSizeChecks 8 = true ∧ ¬ missingElement.InBounds 8 8) ∧
    (longComplaint.passesSizeChecks 4 = true ∧ ¬ longComplaint.InBounds 4 4) ∧
    (oversizedComplaints.passesSizeChecks 4 = true ∧ ¬ oversizedComplaints.InBounds 4 4) := by
  refine ⟨⟨by decide +kernel, ?_⟩, ⟨by decide +kernel, ?_⟩, by decide +kernel, ?_⟩
  · rintro ⟨accepted, hchecks, -⟩
    exact not_returns_of_isOk (by decide +kernel) ⟨accepted, hchecks⟩
  · rintro ⟨accepted, hchecks, -⟩
    exact not_returns_of_isOk (by decide +kernel) ⟨accepted, hchecks⟩
  · rintro ⟨accepted, hchecks, hiter⟩
    have htrue : oversizedComplaints.structuralChecks 4 = .ok true := by decide +kernel
    rw [hchecks, ok.injEq] at htrue
    refine not_returns_of_isOk ?_
      ((hiter htrue).digest ⟨fun _ => replicate 32 0, fun _ => length_replicate⟩)
    decide +kernel

end Checks

/-! ## The message of the view change logic -/

section Decode

variable (m)

/-- The digest in an element; its first byte is the most significant one. -/
def digestAt (loc : ℕ) : Digest :=
  BitVec.ofNat 256 (leNat ((m.bytes.drop (loc + 8)).take 32).reverse)

def certificateAt (loc : ℕ) : PreparedCertificate where
  certificateView := m.certificateViewAt loc
  certificateSig := (m.bytes.drop (loc + 59)).take (m.certificateSigLengthAt loc)

def elementAt (loc : ℕ) : Element where
  seqNum := m.seqNumAt loc
  prePrepareDigest := m.digestAt loc
  originView := m.originViewAt loc
  preparedCertificate := if m.hasCertificateAt loc then some (m.certificateAt loc) else none

/-- The message without its layout. -/
def decode : ConcordBft.ViewChangeMsg where
  newView := m.newView
  lastStable := m.lastStable
  elements := m.elements.map m.elementAt

variable {m}

theorem checkElementsFrom_of_loop {n rem rem' loc : ℕ} {last : ℤ}
    (h : m.elementsLoop n rem loc last = .ok (some rem')) (hle : loc + rem ≤ m.size) :
    m.decode.checkElementsFrom last ((m.elementsAt n loc).map m.elementAt) = true := by
  induction n generalizing rem loc last with
  | zero => rfl
  | succ n ih =>
    obtain ⟨hrem, rem₁, hr, h⟩ := elementsLoop_eq_some h
    obtain ⟨-, ⟨hseq, hview, hcert⟩, hsum, -⟩ := (checkElement_eq_some hrem).mp hr
    have hrest := ih h (by omega)
    have hwindow := hseq.2.trans windowEnd_le
    have hall : (m.elementAt loc).preparedCertificate.all (fun c =>
        decide (c.certificateView ≤ (m.elementAt loc).originView) &&
          decide (c.certificateSig.length ≠ 0)) = true := by
      show (if m.hasCertificateAt loc then some (m.certificateAt loc) else none).all _ = true
      split_ifs with hc
      · obtain ⟨hcv, hne⟩ := hcert hc
        have hafter : m.afterElement loc = loc + 59 + m.certificateSigLengthAt loc := if_pos hc
        have hlen : (m.certificateAt loc).certificateSig.length = m.certificateSigLengthAt loc := by
          show ((m.bytes.drop (loc + 59)).take (m.certificateSigLengthAt loc)).length = _
          rw [length_take, length_drop]
          have hsize : m.size = m.bytes.length := rfl
          omega
        rw [Option.all_some, hlen, decide_eq_true hne, Bool.and_true]
        exact decide_eq_true hcv
      · rw [Option.all_none]
    rw [elementsAt, map_cons, ConcordBft.ViewChangeMsg.checkElementsFrom]
    unfold ConcordBft.ViewChangeMsg.checkElement
    simp only [hall, Bool.and_true, Bool.and_eq_true, decide_eq_true_eq]
    exact ⟨⟨⟨hseq.1, hwindow⟩, hview⟩, hrest⟩

/-- The elements of an accepted message with room for its signature are checked elements. -/
theorem checkElements_decode {sigSize : UInt16} (h : m.checkElements sigSize = .ok true)
    (hroom : sigSize.toNat + m.elementsBegin ≤ m.size) : m.decode.checkElements = true := by
  unfold checkElements at h
  obtain ⟨r, hr, h⟩ := bind_eq_ok.mp h
  rcases r with _ | rem'
  · cases h
  · refine checkElementsFrom_of_loop hr ?_
    rw [wrapSub_of_le m.size_lt_pow hroom]
    omega

theorem checkElements_smallMsg : smallMsg.checkElements 4 = .ok true ∧
    smallMsg.decode.checkElements = true := by
  have h : smallMsg.checkElements 4 = .ok true := by decide +kernel
  exact ⟨h, checkElements_decode h (by decide +kernel)⟩

end Decode

end ConcordBft.Wire.ViewChangeMsg
