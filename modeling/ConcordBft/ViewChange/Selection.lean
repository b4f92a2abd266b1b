import ConcordBft.Lib.Tally
import ConcordBft.ViewChange.Iterators
import Mathlib.Data.Prod.Lex
import Mathlib.Algebra.Order.Group.Int

/-!
# What is selected for one sequence number

`selectRestriction` on well placed iterators is a function of the elements of the sequence number
(`selectRestriction_eq`), in the order of the iterators. That order matters only through the
ordered set: of several certificates with one view and one digest the set keeps the first, before
any signature is checked (`firstFor`). The certificate selected is the highest one among those
kept that the verifier accepts (`HighestVerified`), and the fast path votes above it decide
(`selection_eq_some_iff_of_highest`, `selection_eq_some_iff_of_none`).
-/

namespace ConcordBft

open Verif Verif.Exec Tally OrdSet List

/-- A threshold verifier that is a predicate of the digest and the signature. -/
abbrev Accepts := ℤ → Digest → List UInt8 → Bool

def Accepts.toVerify (accepts : Accepts) : SlowPathVerify := fun s d sig => .ok (accepts s d sig)

/-! ## The order of the certificates -/

/-- Higher views first, then smaller digests. -/
def slowKey (x : SlowElem) : ℤ ×ₗ ℕ := toLex (-x.c.certificateView, x.e.prePrepareDigest.toNat)

theorem slowElemCompare_iff (a b : SlowElem) :
    slowElemCompare a b = true ↔ slowKey a < slowKey b := by
  unfold slowElemCompare slowKey
  rw [Prod.Lex.toLex_lt_toLex]
  by_cases h : a.c.certificateView = b.c.certificateView
  · rw [if_neg (not_not.mpr h)]
    simp [h, BitVec.lt_def]
  · rw [if_pos h]
    simp only [gt_iff_lt, decide_eq_true_eq]
    omega

theorem slowKey_le_iff {a b : SlowElem} : slowKey a ≤ slowKey b ↔
    b.c.certificateView < a.c.certificateView ∨ (b.c.certificateView = a.c.certificateView ∧
        a.e.prePrepareDigest ≤ b.e.prePrepareDigest) := by
  unfold slowKey
  rw [Prod.Lex.toLex_le_toLex, BitVec.le_def]
  simp only [Int.neg_lt_neg_iff, neg_inj]
  exact or_congr_right (and_congr_left' eq_comm)

/-! ## The selection as a function of the elements -/

def slowElems (E : List Element) : List SlowElem :=
  E.filterMap fun e => e.preparedCertificate.map fun c => ⟨e, c⟩

def verifies (accepts : Accepts) (x : SlowElem) : Bool :=
  accepts x.e.seqNum (x.e.prePrepareDigest.calcCombination x.c.certificateView x.e.seqNum)
    x.c.certificateSig

/-- The digests voted for in views from `minView` on. -/
def fastVotes (E : List Element) (minView : ℤ) : List Digest :=
  (E.filter fun e => decide (minView ≤ e.originView)).map Element.prePrepareDigest

/-- The certificate that the loop over the set selects. -/
def selectedSlow (accepts : Accepts) (E : List Element) : Option SlowElem :=
  (ofList slowElemCompare (slowElems E)).find? (verifies accepts)

def minRelevantFastView (slow : Option SlowElem) : ℤ :=
  match slow with
  | some x => x.c.certificateView + 1
  | none => 0

/-- The digest selected from the elements of one sequence number. -/
def selection (quorum : ℕ) (accepts : Accepts) (E : List Element) : Option Digest :=
  let slow := selectedSlow accepts E
  match firstToReach quorum (fun _ => 0) (fastVotes E (minRelevantFastView slow)) with
  | some d => some d
  | none => slow.map fun x => x.e.prePrepareDigest

variable {x : SlowElem} {E : List Element}

theorem mem_slowElems : x ∈ slowElems E ↔ x.e ∈ E ∧ x.e.preparedCertificate = some x.c := by
  unfold slowElems
  rw [mem_filterMap]
  constructor
  · rintro ⟨e, he, hx⟩
    obtain ⟨c, hc, rfl⟩ := Option.map_eq_some_iff.mp hx
    exact ⟨he, hc⟩
  · rintro ⟨he, hc⟩
    exact ⟨x.e, he, by rw [hc]; rfl⟩

/-! ## The loops on well placed iterators -/

variable {s : ℤ} {its : List ElementsIterator}

theorem currentAtLeast_cons {e : Element} {rest : List Element} (h : s ≤ e.seqNum) :
    currentAtLeast s (e :: rest) = .ok e := by
  unfold currentAtLeast
  simp [decide_eq_true h]

theorem WellPlaced.cases {it : ElementsIterator}
    (h : WellPlaced s (it :: its)) : ∃ e rest, it = e :: rest ∧ s ≤ e.seqNum ∧
      elementsFor s (it :: its) = (if e.seqNum = s then [e] else []) ++ elementsFor s its := by
  rcases it with _ | ⟨e, rest⟩
  · exact absurd rfl (h.live [] mem_cons_self)
  have hle : s ≤ e.seqNum := h.atLeast _ mem_cons_self e mem_cons_self
  refine ⟨e, rest, rfl, hle, ?_⟩
  rw [elementsFor_cons, filter_current (h.sorted _ mem_cons_self) hle]

theorem collectSlow_eq (hw : WellPlaced s its) (acc : List SlowElem) : collectSlow s its acc =
      .ok ((slowElems (elementsFor s its)).foldl (fun l x => insert slowElemCompare x l) acc) := by
  induction its generalizing acc with
  | nil => rfl
  | cons it its ih =>
    obtain ⟨e, rest, rfl, hle, hE⟩ := hw.cases
    unfold collectSlow
    rw [hE, currentAtLeast_cons hle, ok_bind]
    rcases hc : e.preparedCertificate with _ | c
    · simp only
      rw [ih hw.tail]
      by_cases hs : e.seqNum = s
      · simp [hs, slowElems, hc]
      · simp [hs]
    · simp only
      by_cases hs : e.seqNum = s
      · rw [if_pos hs, ih hw.tail, if_pos hs]
        simp [slowElems, hc]
      · rw [if_neg hs, ih hw.tail, if_neg hs]
        simp

theorem checkSlowPathCertificates_eq {l : List SlowElem}
    (hs : ∀ x ∈ l, x.e.seqNum = s) (hsort : OrdSet.Sorted slowKey l) :
    checkSlowPathCertificates l = .ok true := by
  induction l with
  | nil => rfl
  | cons a l ih =>
    rcases l with _ | ⟨b, l⟩
    · rfl
    obtain ⟨hab, htail⟩ := pairwise_cons.mp hsort
    have hle : slowKey a ≤ slowKey b := (hab b mem_cons_self).le
    have hview : ¬ b.c.certificateView > a.c.certificateView := by
      rcases slowKey_le_iff.mp hle with h | ⟨h, -⟩ <;> omega
    have hseq : b.e.seqNum = a.e.seqNum := by
      rw [hs b (by simp), hs a (by simp)]
    have htail' := ih (fun x hx => hs x (mem_cons_of_mem _ hx)) htail
    unfold checkSlowPathCertificates
    rw [if_neg hview]
    simp [hseq, htail']

variable {accepts : Accepts}

theorem selectSlow_eq {l : List SlowElem}
    (hs : ∀ x ∈ l, x.e.seqNum = s) (hsig : ∀ x ∈ l, 0 < x.c.certificateSig.length) :
    selectSlow accepts.toVerify s l = .ok (l.find? (verifies accepts)) := by
  induction l with
  | nil => rfl
  | cons x l ih =>
    have hx : x.e.seqNum = s := hs x mem_cons_self
    have ih := ih (fun y hy => hs y (mem_cons_of_mem _ hy))
      (fun y hy => hsig y (mem_cons_of_mem _ hy))
    unfold selectSlow
    rw [ensure_decide hx.symm, ensure_decide (hsig x mem_cons_self)]
    have hv : accepts.toVerify s
        (x.e.prePrepareDigest.calcCombination x.c.certificateView x.e.seqNum)
        x.c.certificateSig = .ok (verifies accepts x) := by
      unfold Accepts.toVerify verifies
      rw [hx]
    simp only [hv, ok_bind, ih, pure_eq_ok]
    split_ifs with hp
    · rw [List.find?_cons_of_pos hp]
    · rw [List.find?_cons_of_neg hp]

theorem selectFast_eq {quorum : ℕ} {minView : ℤ} (hw : WellPlaced s its) (counters : Digest → ℕ) :
    selectFast quorum s minView its counters =
      .ok (firstToReach quorum counters (fastVotes (elementsFor s its) minView)) := by
  induction its generalizing counters with
  | nil => rfl
  | cons it its ih =>
    obtain ⟨e, rest, rfl, hle, hE⟩ := hw.cases
    have ih := ih hw.tail
    unfold selectFast
    rw [hE, currentAtLeast_cons hle, ok_bind]
    by_cases hs : e.seqNum = s ∧ minView ≤ e.originView
    · have hvotes : fastVotes ((if e.seqNum = s then [e] else []) ++ elementsFor s its) minView =
          e.prePrepareDigest :: fastVotes (elementsFor s its) minView := by
        rw [if_pos hs.1]
        simp [fastVotes, hs.2]
      rw [if_pos hs, hvotes]
      unfold firstToReach
      simp only [ih, pure_eq_ok]
      split_ifs <;> rfl
    · have hvotes : fastVotes ((if e.seqNum = s then [e] else []) ++ elementsFor s its) minView =
          fastVotes (elementsFor s its) minView := by
        split_ifs with h1
        · have h2 : ¬ minView ≤ e.originView := fun h2 => hs ⟨h1, h2⟩
          simp [fastVotes, h2]
        · rw [nil_append]
      rw [if_neg hs, hvotes, ih]

theorem setElems_spec (hw : WellPlaced s its) :
    ∀ x ∈ ofList slowElemCompare (slowElems (elementsFor s its)),
      x.e.seqNum = s ∧ 0 < x.c.certificateSig.length := by
  intro x hx
  have hx := mem_of_find?_eq_some ((mem_ofList slowElemCompare_iff).1 hx)
  obtain ⟨he, hc⟩ := mem_slowElems.mp hx
  obtain ⟨it, hit, hmem, hseq⟩ := mem_elementsFor.mp he
  exact ⟨hseq, hw.signed it hit x.e hmem x.c hc⟩

/-- **The selection of a sequence number** is a function of its elements in iterator order. -/
theorem selectRestriction_eq (logic : ViewChangeSafetyLogic) (hw : WellPlaced s its) :
    logic.selectRestriction accepts.toVerify s its =
      .ok (selection logic.fastQuorum accepts (elementsFor s its)) := by
  have hset := setElems_spec hw
  unfold ViewChangeSafetyLogic.selectRestriction
  rw [collectSlow_eq hw, ok_bind]
  rw [show (slowElems (elementsFor s its)).foldl (fun l x => insert slowElemCompare x l) [] =
      ofList slowElemCompare (slowElems (elementsFor s its)) from rfl]
  rw [checkSlowPathCertificates_eq (fun x hx => (hset x hx).1)
    (sorted_ofList slowElemCompare_iff _), ok_bind, ensure_true, ok_bind,
    selectSlow_eq (fun x hx => (hset x hx).1) (fun x hx => (hset x hx).2), ok_bind]
  simp only [selectFast_eq hw, ok_bind]
  rfl

/-! ## Which digest is selected -/

section Decide

/-- The first element with a certificate of view `w` and digest `d`: the one the set keeps. -/
def firstFor (E : List Element) (w : ℤ) (d : Digest) : Option SlowElem :=
  (slowElems E).find? fun x => decide (x.c.certificateView = w ∧ x.e.prePrepareDigest = d)

/-- The first element with a certificate of view `w` and digest `d` carries an accepted one. -/
def FirstVerifies (accepts : Accepts) (E : List Element) (w : ℤ) (d : Digest) : Prop :=
  ∃ x, firstFor E w d = some x ∧ verifies accepts x = true

/-- `(w, d)` comes first, by view and then by digest, among the certificates that are the first
of their kind and accepted. -/
def HighestVerified (accepts : Accepts) (E : List Element) (w : ℤ) (d : Digest) : Prop :=
  FirstVerifies accepts E w d ∧
    ∀ w' d', FirstVerifies accepts E w' d' → w' < w ∨ (w' = w ∧ d ≤ d')

/-- The number of votes for `d` in views from `minView` on. -/
def votes (E : List Element) (d : Digest) (minView : ℤ) : ℕ :=
  E.countP fun e => decide (e.prePrepareDigest = d ∧ minView ≤ e.originView)

theorem count_fastVotes (E : List Element) (d : Digest) (minView : ℤ) :
    (fastVotes E minView).count d = votes E d minView := by
  unfold fastVotes votes
  rw [List.count, countP_map, countP_filter]
  refine countP_congr ?_
  intro e _
  simp [Function.comp]

theorem mem_set_iff : x ∈ ofList slowElemCompare (slowElems E) ↔
    firstFor E x.c.certificateView x.e.prePrepareDigest = some x := by
  rw [mem_ofList slowElemCompare_iff]
  unfold firstFor
  simp only [slowKey, toLex_inj, Prod.mk.injEq, neg_inj, BitVec.toNat_inj]

theorem firstFor_spec {w : ℤ} {d : Digest} (h : firstFor E w d = some x) :
    x.c.certificateView = w ∧ x.e.prePrepareDigest = d := by
  simpa using List.find?_some h

theorem highestVerified_of_selectedSlow (h : selectedSlow accepts E = some x) :
    HighestVerified accepts E x.c.certificateView x.e.prePrepareDigest := by
  have hsorted := sorted_ofList slowElemCompare_iff (slowElems E)
  obtain ⟨hmem, hver, hmin⟩ := hsorted.find?_eq_some h
  refine ⟨⟨x, mem_set_iff.mp hmem, hver⟩, ?_⟩
  rintro w' d' ⟨y, hy, hyver⟩
  obtain ⟨rfl, rfl⟩ := firstFor_spec hy
  exact slowKey_le_iff.mp (hmin y (mem_set_iff.mpr hy) hyver)

theorem not_firstVerifies_of_selectedSlow (h : selectedSlow accepts E = none) (w : ℤ)
    (d : Digest) : ¬ FirstVerifies accepts E w d := by
  rintro ⟨y, hy, hyver⟩
  obtain ⟨rfl, rfl⟩ := firstFor_spec hy
  exact List.find?_eq_none.mp h y (mem_set_iff.mpr hy) hyver

theorem HighestVerified.unique {w w' : ℤ} {d d' : Digest} (h : HighestVerified accepts E w d)
    (h' : HighestVerified accepts E w' d') : w = w' ∧ d = d' := by
  rcases h.2 w' d' h'.1 with h1 | ⟨h1, h2⟩
  · rcases h'.2 w d h.1 with h3 | ⟨h3, -⟩ <;> omega
  · rcases h'.2 w d h.1 with h3 | ⟨-, h4⟩
    · omega
    · exact ⟨h1.symm, BitVec.le_antisymm h2 h4⟩

theorem highestVerified_or (accepts : Accepts) (E : List Element) :
    (∃ w e, HighestVerified accepts E w e) ∨ ∀ w e, ¬ FirstVerifies accepts E w e := by
  rcases h : selectedSlow accepts E with _ | x
  · exact .inr (not_firstVerifies_of_selectedSlow h)
  · exact .inl ⟨_, _, highestVerified_of_selectedSlow h⟩

variable {quorum : ℕ} (hq : 2 ≤ quorum) (hE : E.length < 2 * quorum)

include hE in
theorem length_fastVotes_lt (minView : ℤ) : (fastVotes E minView).length < 2 * quorum := by
  unfold fastVotes
  rw [length_map]
  exact Nat.lt_of_le_of_lt (length_filter_le _ _) hE

include hq hE

theorem selection_eq_some_iff {d : Digest} : selection quorum accepts E = some d ↔
    let slow := selectedSlow accepts E
    quorum ≤ votes E d (minRelevantFastView slow) ∨
      ((slow.map fun x => x.e.prePrepareDigest) = some d ∧
        ∀ e, votes E e (minRelevantFastView slow) < quorum) := by
  have hlen := length_fastVotes_lt hE (minRelevantFastView (selectedSlow accepts E))
  unfold selection
  simp only [← count_fastVotes]
  rcases hfast : firstToReach quorum (fun _ => 0)
    (fastVotes E (minRelevantFastView (selectedSlow accepts E))) with _ | f
  · have hall := fun d => count_lt_of_firstToReach_eq_none hq (fun _ => by omega) hfast d
    simp only [Nat.zero_add] at hall
    exact ⟨fun hd => .inr ⟨hd, hall⟩, fun h => (h.resolve_left (hall d).not_ge).1⟩
  · have hf := (firstToReach_eq_some_iff hq hlen).1 hfast
    rw [← firstToReach_eq_some_iff hq hlen, hfast]
    exact ⟨.inl, fun h => h.resolve_right fun hall => (hall.2 f).not_ge hf⟩

/-- With a selected certificate `(w, e)`, the digest `d` is selected exactly when it has a quorum
of votes above `w`, or no digest has one and `d` is the certificate's. -/
theorem selection_eq_some_iff_of_highest {w : ℤ} {e d : Digest}
    (h : HighestVerified accepts E w e) : selection quorum accepts E = some d ↔
      quorum ≤ votes E d (w + 1) ∨ (e = d ∧ ∀ e', votes E e' (w + 1) < quorum) := by
  rw [selection_eq_some_iff hq hE]
  rcases hslow : selectedSlow accepts E with _ | x
  · exact absurd h.1 (not_firstVerifies_of_selectedSlow hslow w e)
  obtain ⟨rfl, rfl⟩ := h.unique (highestVerified_of_selectedSlow hslow)
  exact or_congr_right (and_congr_left' Option.some_inj)

theorem selection_eq_some_iff_of_none {d : Digest} (h : ∀ w e, ¬ FirstVerifies accepts E w e) :
    selection quorum accepts E = some d ↔ quorum ≤ votes E d 0 := by
  rw [selection_eq_some_iff hq hE]
  rcases hslow : selectedSlow accepts E with _ | x
  · exact or_iff_left fun h => nomatch h.1
  · exact absurd (highestVerified_of_selectedSlow hslow).1 (h _ _)

theorem selection_eq_some_iff_exists {d : Digest} : selection quorum accepts E = some d ↔
    (∃ w e, HighestVerified accepts E w e ∧
      (quorum ≤ votes E d (w + 1) ∨ (e = d ∧ ∀ e', votes E e' (w + 1) < quorum))) ∨
    ((∀ w e, ¬ FirstVerifies accepts E w e) ∧ quorum ≤ votes E d 0) := by
  rcases highestVerified_or accepts E with ⟨w, e, h⟩ | h
  · rw [selection_eq_some_iff_of_highest hq hE h]
    refine ⟨fun hd => .inl ⟨w, e, h, hd⟩, ?_⟩
    rintro (⟨w', e', h', hd⟩ | ⟨hnone, -⟩)
    · obtain ⟨rfl, rfl⟩ := h.unique h'
      exact hd
    · exact absurd h.1 (hnone w e)
  · rw [selection_eq_some_iff_of_none hq hE h, or_iff_right fun ⟨w, e, h', _⟩ => h w e h'.1,
      and_iff_right h]

theorem selection_eq_none_iff : selection quorum accepts E = none ↔
    (∀ w e, ¬ FirstVerifies accepts E w e) ∧ ∀ e, votes E e 0 < quorum := by
  rcases highestVerified_or accepts E with ⟨w, e, h⟩ | h
  · refine iff_of_false ?_ fun hnone => hnone.1 w e h.1
    unfold selection
    rcases hslow : selectedSlow accepts E with _ | x
    · exact absurd h.1 (not_firstVerifies_of_selectedSlow hslow w e)
    · simp only [Option.map_some]
      split <;> simp
  · rw [Option.eq_none_iff_forall_ne_some, and_iff_right h]
    simp only [ne_eq, selection_eq_some_iff_of_none hq hE h, not_le]

/-- The certificate is for `d`, and hides at most the votes for `d`. -/
theorem selection_eq_some_of_highest {w : ℤ} {d : Digest} (h : HighestVerified accepts E w d)
    (hfew : ∀ e, e ≠ d → votes E e (w + 1) < quorum) : selection quorum accepts E = some d := by
  rw [selection_eq_some_iff_of_highest hq hE h]
  refine (le_or_gt quorum (votes E d (w + 1))).imp_right fun hd => ⟨rfl, fun e => ?_⟩
  by_cases he : e = d
  · exact he ▸ hd
  · exact hfew e he

end Decide

/-- A lone element opens a counter and reaches no quorum: its certificate decides. -/
theorem selection_singleton {quorum : ℕ}
    (hc : x.e.preparedCertificate = some x.c) (hver : verifies accepts x = true) :
    selection quorum accepts [x.e] = some x.e.prePrepareDigest := by
  have hslow : selectedSlow accepts [x.e] = some x := by
    have helems : slowElems [x.e] = [x] := by simp [slowElems, hc]
    unfold selectedSlow
    rw [helems]
    exact List.find?_cons_of_pos hver
  have hvotes : ∀ w, firstToReach quorum (fun _ => 0) (fastVotes [x.e] w) = none := by
    intro w
    by_cases hw : w ≤ x.e.originView <;> simp [fastVotes, hw, firstToReach]
  unfold selection
  rw [hslow]
  simp only [hvotes, Option.map_some]

theorem votes_perm {E' : List Element} (h : E.Perm E') (d : Digest) (w : ℤ) :
    votes E d w = votes E' d w := h.countP_eq _

theorem votes_anti (E : List Element) (d : Digest) {w w' : ℤ} (h : w ≤ w') :
    votes E d w' ≤ votes E d w := by
  unfold votes
  refine countP_mono_left ?_
  intro e _
  simp only [decide_eq_true_eq]
  rintro ⟨h1, h2⟩
  exact ⟨h1, by omega⟩

end ConcordBft
