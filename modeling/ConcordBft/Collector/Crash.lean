import ConcordBft.Collector.ThresholdSignatures
import ConcordBft.Lib.Buffer
import ConcordBft.Threshsign.Multisig
import ConcordBft.ViewChange.Restrictions

/-!
# Which signature bytes stop the process

Validation only checks that a signature fits into its message. The three places that process
signatures return under these conditions on the bytes, and stop the process otherwise:

1. a combined signature is a sequence of whole shares (`returns_combinedSigVerification`);
2. the shares of a job have the size of a share, the shares of different ids fit into the buffer,
   and no share has the id past the last verifier unless the first round already has enough valid
   shares (`returns_signaturesProcessing`);
3. every certificate that is looked at, up to the first one accepted, is a sequence of whole
   shares (`returns_computeRestrictionsForSeqNum`).
-/

namespace ConcordBft

open Verif Verif.Exec EdDSASignatureAccumulator ViewChangeSafetyLogic EdDSAMultisigVerifier List
open SingleEdDSASignature hiding id

/-! ## Validated messages -/

theorem SignedShareBase.length_signature {m : SignedShareBase} {info : ReplicasInfo}
    (h : m.validate info = true) : m.signature.length = m.thresSigLength.toNat := by
  unfold validate at h
  simp only [Bool.and_eq_true, decide_eq_true_eq] at h
  unfold signature
  rw [length_take, length_drop]
  omega

namespace JobContext

variable (ctx : JobContext) (digest : Digest)

/-! ## Combined signatures -/

theorem returns_verify (v : EdDSAMultisigVerifier) (msg : List UInt8) {sig : List UInt8} :
    Returns (v.verify msg sig) ↔ sig.length % 72 = 0 := by
  by_cases h : sig.length % 72 = 0
  · rw [v.verify_eq msg h]
    simp [h]
  · simp [EdDSAMultisigVerifier.verify, ensure, h]

theorem returns_combinedSigVerification (sig : List UInt8) :
    Returns (ctx.executeCombinedSigVerification digest sig) ↔ sig.length % 72 = 0 := by
  unfold executeCombinedSigVerification
  rw [← returns_verify ctx.verifier digest.bytes]
  exact returns_bind_left fun _ => returns_ok _

/-! ## Shares of a job -/

variable (items : List (List UInt8))

/-- The byte strings that have the size of a share. -/
def asShares : List SingleEdDSASignature :=
  items.filterMap fun b => if h : b.length = 72 then some ⟨b, h⟩ else none

theorem asShares_map_bytes {items : List (List UInt8)} (h : ∀ b ∈ items, b.length = 72) :
    (asShares items).map SingleEdDSASignature.bytes = items := by
  induction items with
  | nil => rfl
  | cons b items ih =>
    have hb : b.length = 72 := h b mem_cons_self
    have hcons : asShares (b :: items) = ⟨b, hb⟩ :: asShares items := by
      unfold asShares
      rw [filterMap_cons_some (by rw [dif_pos hb])]
    rw [hcons, map_cons, ih fun b' hb' => h b' (mem_cons_of_mem _ hb')]

variable {acc : EdDSASignatureAccumulator} {v : EdDSAMultisigVerifier}

theorem not_returns_addAll {items : List (List UInt8)} (h : ¬ ∀ b ∈ items, b.length = 72) :
    ¬ Returns (addAll v acc items) := by
  unfold addAll
  induction items generalizing acc with
  | nil => exact absurd (by simp) h
  | cons b items ih =>
    rw [run_cons, returns_bind]
    rintro ⟨acc', hacc', hret⟩
    by_cases hb : b.length = 72
    · exact ih (fun hall => h (forall_mem_cons.mpr ⟨hb, hall⟩)) hret
    · rw [add, dif_neg hb] at hacc'
      cases hacc'

variable {shares : List SingleEdDSASignature}

theorem not_returns_addAll_index (hver : acc.verification = true)
    (h : ∃ share ∈ shares, share.id = v.maxShareID) :
    ¬ Returns (addAll v acc (shares.map bytes)) := by
  unfold addAll
  induction shares generalizing acc with
  | nil => simp at h
  | cons share shares ih =>
    rw [map_cons, run_cons, returns_bind]
    rintro ⟨acc', hacc', hret⟩
    by_cases hid : share.id = v.maxShareID
    · rw [add_index v hver hid] at hacc'
      cases hacc'
    · rw [add_eq v fun _ => hid, Except.ok.injEq] at hacc'
      subst hacc'
      have hconst : (addShare v acc share).verification = true := by
        unfold addShare
        split_ifs <;> exact hver
      obtain ⟨share', hmem, hid'⟩ := h
      rcases mem_cons.mp hmem with rfl | hmem
      · exact hid hid'
      · exact ih hconst ⟨share', hmem, hid'⟩ hret

/-- The valid shares among those that a round keeps. -/
def validKept (shares : List SingleEdDSASignature) : ℕ :=
  (kept ctx.verifier shares).countP
    (ctx.verifier.validShare digest.bytes)

def written (shares : List SingleEdDSASignature) : List UInt8 :=
  (ctx.shareOrder.order (kept ctx.verifier shares)).flatMap bytes

theorem combine_eq (verification : Bool)
    (hfit : (kept ctx.verifier shares).length * 72 ≤ ctx.bufferSize)
    (hid : verification = true → ∀ share ∈ shares, share.id ≠ ctx.verifier.maxShareID) :
    ctx.combine verification digest (shares.map bytes) =
      .ok (accumulated ctx.verifier shares verification digest.bytes, ctx.written shares,
        decide (ctx.verifier.threshold ≤ ctx.validKept digest shares)) := by
  have hacc := addAll_eq ctx.verifier
    ⟨verification, digest.bytes, [], []⟩ shares hid
  rw [foldl_addShare] at hacc
  have hdata : (accumulated ctx.verifier shares verification
      digest.bytes).getFullSignedData ctx.shareOrder ctx.bufferSize = .ok (ctx.written shares) :=
    getFullSignedData_eq ctx.shareOrder hfit
  have hverify : ctx.verifier.verify digest.bytes (ctx.written shares) =
      .ok (decide (ctx.verifier.threshold ≤ ctx.validKept digest shares)) :=
    verify_kept ctx.verifier ctx.shareOrder digest.bytes shares
  unfold combine
  rw [hacc, ok_bind, hdata, ok_bind, hverify, ok_bind]
  rfl

theorem not_returns_combine (hfit : ¬ (kept ctx.verifier shares).length * 72 ≤ ctx.bufferSize) :
    ¬ Returns (ctx.combine false digest (shares.map bytes)) := by
  have hacc := addAll_eq ctx.verifier
    ⟨false, digest.bytes, [], []⟩ shares (by simp)
  rw [foldl_addShare] at hacc
  have hdata : (accumulated ctx.verifier shares false
      digest.bytes).getFullSignedData ctx.shareOrder ctx.bufferSize = .error .assertion := by
    unfold getFullSignedData
    rw [show (accumulated ctx.verifier shares false
      digest.bytes).signatures = kept ctx.verifier shares from rfl, decide_eq_false hfit]
    rfl
  unfold combine
  rw [hacc, ok_bind, hdata]
  exact not_returns_error _

/-- What the shares of a job need: whole shares, one share of every id fits into the buffer, and
the first round has enough valid ones or no id is past the last verifier. -/
def SharesSafe : Prop :=
  (∀ b ∈ items, b.length = 72) ∧
  (kept ctx.verifier (asShares items)).length * 72 ≤ ctx.bufferSize ∧
  (ctx.verifier.threshold ≤ ctx.validKept digest (asShares items) ∨
    ∀ share ∈ asShares items, share.id ≠ ctx.verifier.maxShareID)

theorem returns_signaturesProcessing :
    Returns (ctx.executeSignaturesProcessing digest items) ↔ ctx.SharesSafe digest items := by
  unfold SharesSafe
  by_cases hlen : ∀ b ∈ items, b.length = 72
  swap
  · refine ⟨fun hret => ?_, fun h => absurd h.1 hlen⟩
    unfold executeSignaturesProcessing combine at hret
    exact absurd hret.of_bind.of_bind (not_returns_addAll hlen)
  have hitems := asShares_map_bytes hlen
  by_cases hfit : (kept ctx.verifier (asShares items)).length * 72 ≤ ctx.bufferSize
  swap
  · refine ⟨fun hret => ?_, fun h => absurd h.2.1 hfit⟩
    unfold executeSignaturesProcessing at hret
    have hcombine := hret.of_bind
    rw [← hitems] at hcombine
    exact absurd hcombine (ctx.not_returns_combine digest hfit)
  have hround := ctx.combine_eq digest false hfit (by simp)
  rw [hitems] at hround
  unfold executeSignaturesProcessing
  rw [hround, ok_bind]
  by_cases hvalid : ctx.verifier.threshold ≤ ctx.validKept digest (asShares items)
  · simp only [hvalid, decide_true, if_true]
    exact ⟨fun _ => ⟨hlen, hfit, .inl trivial⟩, fun _ => returns_ok _⟩
  · simp only [hvalid, decide_false, Bool.false_eq_true, if_false, false_or]
    by_cases hid : ∀ share ∈ asShares items, share.id ≠ ctx.verifier.maxShareID
    · have hround' := ctx.combine_eq digest true hfit fun _ => hid
      rw [hitems] at hround'
      rw [hround', ok_bind]
      simp only [hvalid, decide_false, Bool.false_eq_true, if_false]
      exact ⟨fun _ => ⟨hlen, hfit, hid⟩, fun _ => returns_ok _⟩
    · refine ⟨fun hret => ?_, fun h => absurd h.2.2 hid⟩
      unfold combine at hret
      have hadd := hret.of_bind.of_bind
      rw [← hitems] at hadd
      push Not at hid
      exact absurd hadd (not_returns_addAll_index rfl hid)

end JobContext

/-! ## Prepared certificates -/

section Certificates

variable (verifier : ℤ → EdDSAMultisigVerifier)

/-- The EdDSA verifier of a sequence number, as `computeRestrictionsForSeqNum` calls it. -/
def eddsaVerify : SlowPathVerify := fun s d sig => (verifier s).verify d.bytes sig

def Accepted (x : SlowElem) : Prop :=
  eddsaVerify verifier x.e.seqNum
    (x.e.prePrepareDigest.calcCombination x.c.certificateView x.e.seqNum) x.c.certificateSig =
      .ok true

/-- Every certificate with no accepted one before it is a sequence of whole shares. -/
def CertificatesSafe (certificates : List SlowElem) : Prop :=
  ∀ before x after, certificates = before ++ x :: after → (∀ y ∈ before, ¬ Accepted verifier y) →
    x.c.certificateSig.length % 72 = 0

theorem certificatesSafe_cons {x : SlowElem} {l : List SlowElem} :
    CertificatesSafe verifier (x :: l) ↔ x.c.certificateSig.length % 72 = 0 ∧
      (¬ Accepted verifier x → CertificatesSafe verifier l) := by
  show EachAfter _ _ ↔ _
  rw [eachAfter_cons]
  simp only [forall_mem_cons, eachAfter_imp]
  exact and_congr_left' ⟨fun h => h (by simp), fun h _ => h⟩

theorem returns_selectSlow {s : ℤ} {l : List SlowElem} (hs : ∀ x ∈ l, x.e.seqNum = s)
    (hsig : ∀ x ∈ l, 0 < x.c.certificateSig.length) :
    Returns (selectSlow (eddsaVerify verifier) s l) ↔ CertificatesSafe verifier l := by
  induction l with
  | nil => exact ⟨fun _ before x after h => by simp at h, fun _ => returns_ok _⟩
  | cons x l ih =>
    obtain ⟨hx, hs⟩ := forall_mem_cons.mp hs
    obtain ⟨hpos, hsig⟩ := forall_mem_cons.mp hsig
    rw [certificatesSafe_cons]
    unfold selectSlow
    rw [ensure_decide hx.symm, ensure_decide hpos, returns_bind]
    by_cases hlen : x.c.certificateSig.length % 72 = 0
    · obtain ⟨valid, hvalid⟩ := (JobContext.returns_verify (verifier s)
        (x.e.prePrepareDigest.calcCombination x.c.certificateView x.e.seqNum).bytes).mpr hlen
      have hacc : Accepted verifier x ↔ valid = true := by
        unfold Accepted eddsaVerify
        rw [show verifier x.e.seqNum = verifier s by rw [hx], hvalid, Except.ok.injEq]
      have hverify : eddsaVerify verifier s
          (x.e.prePrepareDigest.calcCombination x.c.certificateView x.e.seqNum)
          x.c.certificateSig = .ok valid := hvalid
      simp only [hverify, Except.ok.injEq, hlen, true_and, hacc]
      rcases valid with _ | _
      · simp [ih hs hsig]
      · simp
    · refine iff_of_false ?_ fun h => hlen h.1
      rintro ⟨valid, hvalid, -⟩
      exact hlen ((JobContext.returns_verify _ _).mp ⟨valid, hvalid⟩)

theorem returns_computeRestrictionsForSeqNum (logic : ViewChangeSafetyLogic) {s ub : ℤ}
    {its : List ElementsIterator} (hw : WellPlaced s its) (hne : its ≠ []) (hub : s ≤ ub) :
    Returns (logic.computeRestrictionsForSeqNum (eddsaVerify verifier) s its ub) ↔
      CertificatesSafe verifier (OrdSet.ofList slowElemCompare (slowElems (elementsFor s its))) := by
  obtain ⟨its', hadv, -⟩ := advanceIterators_spec ub hw
  have hset := setElems_spec hw
  have hnonempty : (!its.isEmpty) = true := by simpa using hne
  rw [← returns_selectSlow verifier (fun x hx => (hset x hx).1) (fun x hx => (hset x hx).2)]
  unfold computeRestrictionsForSeqNum
    selectRestriction
  rw [hnonempty, ensure_true, ok_bind, ensure_decide hub, collectSlow_eq hw, ok_bind]
  rw [show (slowElems (elementsFor s its)).foldl (fun l x => OrdSet.insert slowElemCompare x l) [] =
      OrdSet.ofList slowElemCompare (slowElems (elementsFor s its)) from rfl]
  rw [checkSlowPathCertificates_eq (fun x hx => (hset x hx).1)
    (OrdSet.sorted_ofList slowElemCompare_iff _), ok_bind, ensure_true, ok_bind, hadv]
  simp only [selectFast_eq hw, ok_bind, pure_eq_ok]
  constructor
  · exact fun h => h.of_bind.of_bind
  · rintro ⟨slow, hslow⟩
    rw [hslow]
    exact returns_ok _

end Certificates

/-! ## Messages of the network -/

/-- **Processing signatures of validated messages** returns exactly under the conditions on their
bytes: for a combined signature, for the shares of a job, and for the certificates of view change
messages at every sequence number of the window. -/
theorem processing_returns_iff (ctx : JobContext) (digest : Digest) (info : ReplicasInfo) :
    (∀ m : SignedShareBase, m.validate info = true →
      (Returns (ctx.execute (.combinedSigVerification digest m.signature)) ↔
        m.thresSigLength.toNat % 72 = 0)) ∧
    (∀ msgs : List SignedShareBase, (∀ m ∈ msgs, m.validate info = true) →
      (Returns (ctx.execute (.signaturesProcessing digest (msgs.map SignedShareBase.signature))) ↔
        ctx.SharesSafe digest (msgs.map SignedShareBase.signature))) ∧
    ∀ (logic : ViewChangeSafetyLogic) (verifier : ℤ → EdDSAMultisigVerifier)
      (msgs : List (Option ViewChangeMsg)) (LB s : ℤ),
      (∀ m, some m ∈ msgs → m.checkElements = true) → LB + 1 ≤ s → s ≤ LB + kWorkWindowSize →
      iteratorsAt msgs LB s ≠ [] →
      (Returns (logic.computeRestrictionsForSeqNum (eddsaVerify verifier) s
          (iteratorsAt msgs LB s) (LB + kWorkWindowSize)) ↔
        CertificatesSafe verifier (OrdSet.ofList slowElemCompare
          (slowElems (elementsMet msgs LB s)))) := by
  refine ⟨?_, ?_, ?_⟩
  · intro m hm
    rw [← SignedShareBase.length_signature hm]
    exact ctx.returns_combinedSigVerification digest m.signature
  · intro msgs _
    exact ctx.returns_signaturesProcessing digest _
  · intro logic verifier msgs LB s hvalid hlow hhigh hne
    have hw := (liveIterators_spec (LB + kWorkWindowSize)
      (wellPlaced_createIterators (LB + 1) hvalid) (indexOf LB s)).1
    rw [show LB + 1 + ((indexOf LB s : ℕ) : ℤ) = s by
      unfold indexOf
      omega] at hw
    exact returns_computeRestrictionsForSeqNum verifier logic hw hne hhigh

def replicaZeroOfFour : ReplicasInfo := ⟨0, 4, 0⟩

def messageOfReplicaOne (sig : List UInt8) : SignedShareBase :=
  ⟨1, 0, 0, UInt16.ofNat sig.length, sig⟩

def fourSignersContext : JobContext :=
  ⟨fourSigners, IterationOrder.insertion _⟩

def sharesOfOnes : List SignedShareBase :=
  [1, 2, 3].map fun id => messageOfReplicaOne (shareOfOnes id)

/-- An element for the sequence number 1 with a certificate of one share. -/
def certifiedMsg : ViewChangeMsg := ⟨1, 0, [⟨1, 0, 0, some ⟨0, shareOfOnes 1⟩⟩]⟩

theorem processing_returns_whole_shares :
    Returns (fourSignersContext.execute (.combinedSigVerification 0
      (messageOfReplicaOne (shareOfOnes 1)).signature)) ∧
    Returns (fourSignersContext.execute (.signaturesProcessing 0
      (sharesOfOnes.map SignedShareBase.signature))) ∧
    Returns (computeRestrictionsForSeqNum ⟨4, 1, 0, 0, rfl⟩ (eddsaVerify fun _ => fourSigners) 1
      (iteratorsAt [some certifiedMsg] 0 1) (0 + kWorkWindowSize)) := by
  obtain ⟨hcombined, hshares, hcertificates⟩ :=
    processing_returns_iff fourSignersContext 0 replicaZeroOfFour
  have hwhole : ∀ x ∈ OrdSet.ofList slowElemCompare (slowElems (elementsMet [some certifiedMsg] 0 1)),
      x.c.certificateSig.length % 72 = 0 := by decide +kernel
  refine ⟨(hcombined _ (by decide +kernel)).mpr (by decide +kernel),
    (hshares sharesOfOnes (by decide +kernel)).mpr
      ⟨by decide +kernel, by decide +kernel, .inl (by decide +kernel)⟩,
    (hcertificates _ _ _ 0 1 (by simp; decide +kernel) (by decide) (by decide)
      (ne_of_apply_ne List.length (by decide +kernel))).mpr ?_⟩
  intro before x after h _
  rw [h] at hwhole
  exact hwhole x mem_append_cons_self

/-- A combined signature of one byte fails an assertion, and so does a share of one byte. A share
with the id `5` is verified with an entry past the four keys when the other shares of its job are
not enough. -/
theorem stops_on_validated_signatures :
    ((messageOfReplicaOne [0]).validate replicaZeroOfFour = true ∧
      fourSignersContext.execute (.combinedSigVerification 0
        (messageOfReplicaOne [0]).signature) = .error .assertion) ∧
    fourSignersContext.execute (.signaturesProcessing 0
      [(messageOfReplicaOne [0]).signature]) = .error .assertion ∧
    ((messageOfReplicaOne (shareOfOnes 5)).validate replicaZeroOfFour = true ∧
      fourSignersContext.execute (.signaturesProcessing 0
        [shareOfOnes 1, shareOfOnes 2,
          (messageOfReplicaOne (shareOfOnes 5)).signature]) =
        .error .index) := by
  decide +kernel

end ConcordBft
