import ConcordBft.Threshsign.EdDSA

/-!
# What the verifier counts and what the accumulator keeps

`verify` accepts a sequence of shares exactly when at least `threshold` of them are valid
(`verify_eq`): it counts shares, not signers. The accumulator keeps one share per id
(`foldl_addShare`), and verification of what it writes counts the valid ones among them, in whatever
order its map is iterated (`verify_kept`).
-/

namespace ConcordBft

open Verif Verif.Exec EdDSASignatureAccumulator Unordered List EdDSAMultisigVerifier Nat

/-! ## The shares of a byte string -/

namespace SingleEdDSASignature

def readAll : ℕ → List UInt8 → List SingleEdDSASignature
  | 0, _ => []
  | n + 1, buffer =>
    match read buffer with
    | .ok share => share :: readAll n (buffer.drop 72)
    | .error _ => []

def sharesOf (sig : List UInt8) : List SingleEdDSASignature := readAll (sig.length / 72) sig

variable {buffer : List UInt8}

theorem read_eq (h : 72 ≤ buffer.length) :
    read buffer = .ok ⟨buffer.take 72, length_take_share h⟩ := by
  unfold read
  rw [dif_pos h]

theorem readAll_succ {n : ℕ} (h : 72 ≤ buffer.length) : readAll (n + 1) buffer =
      ⟨buffer.take 72, length_take_share h⟩ :: readAll n (buffer.drop 72) := by
  rw [readAll, read_eq h]

theorem length_readAll {n : ℕ} (h : 72 * n ≤ buffer.length) : (readAll n buffer).length = n := by
  induction n generalizing buffer with
  | zero => rfl
  | succ n ih =>
    rw [readAll_succ (by omega), length_cons, ih (by rw [length_drop]; omega)]

variable (l : List SingleEdDSASignature)

theorem readAll_flatMap : readAll l.length (l.flatMap bytes) = l := by
  induction l with
  | nil => rfl
  | cons share l ih =>
    have hlen : 72 ≤ ((share :: l).flatMap bytes).length := by
      rw [flatMap_cons, length_append, share.size_eq]
      omega
    rw [length_cons, readAll_succ hlen]
    have htake : ((share :: l).flatMap bytes).take 72 = share.bytes := by
      rw [flatMap_cons, take_left' share.size_eq]
    have hdrop : ((share :: l).flatMap bytes).drop 72 = l.flatMap bytes := by
      rw [flatMap_cons, drop_left' share.size_eq]
    rw [hdrop, ih]
    congr 1
    cases share
    simp only [htake]

theorem length_flatMap_bytes : (l.flatMap bytes).length = 72 * l.length := by
  induction l with
  | nil => rfl
  | cons share l ih => rw [flatMap_cons, length_append, share.size_eq, ih, length_cons, mul_add_one,
      add_comm]

theorem sharesOf_flatMap : sharesOf (l.flatMap bytes) = l := by
  unfold sharesOf
  rw [length_flatMap_bytes, Nat.mul_div_cancel_left _ (by omega)]
  exact readAll_flatMap l

end SingleEdDSASignature

open SingleEdDSASignature hiding id

/-! ## What `verify` counts -/

namespace EdDSAMultisigVerifier

variable (v : EdDSAMultisigVerifier)

/-- The share names a signer and its signature verifies under the signer's key. -/
def validShare (msg : List UInt8) (share : SingleEdDSASignature) : Bool :=
  decide (share.id ≠ 0) && match v.verifiers[share.id]? with
    | some verifyBuffer => verifyBuffer msg share.signatureBytes
    | none => false

variable {msg sig : List UInt8} {share : SingleEdDSASignature}

theorem exists_of_validShare (h : v.validShare msg share = true) : share.id ≠ 0 ∧
    ∃ f, v.verifiers[share.id]? = some f ∧ f msg share.signatureBytes = true := by
  unfold validShare at h
  rw [Bool.and_eq_true, decide_eq_true_eq] at h
  refine h.imp_right fun hver => ?_
  split at hver
  · exact ⟨_, ‹_›, hver⟩
  · cases hver

theorem validShare_range (h : v.validShare msg share = true) : 1 ≤ share.id ∧ share.id ≤
    v.signersCount := by
  obtain ⟨hid, f, hget, -⟩ := v.exists_of_validShare h
  have := (List.getElem?_eq_some_iff.mp hget).1
  rw [v.size_eq] at this
  omega

theorem verifySingleSignature_eq (h : share.id ≤ v.signersCount) :
    v.verifySingleSignature msg share = .ok (v.validShare msg share) := by
  unfold verifySingleSignature validShare
  split_ifs with hid
  · simp [hid]
  · have hlt : share.id < v.verifiers.length := by
      rw [v.size_eq]
      omega
    rw [List.getElem?_eq_getElem hlt]
    simp [hid]

theorem countValid_eq (msg : List UInt8) {n : ℕ} (h : 72 * n ≤ sig.length) (count : ℕ) :
    v.countValid msg n sig count = .ok (count + (readAll n sig).countP (v.validShare msg)) := by
  induction n generalizing sig count with
  | zero => rfl
  | succ n ih =>
    have hdrop : 72 * n ≤ (sig.drop 72).length := by
      rw [length_drop]
      omega
    have h72 : 72 ≤ sig.length := by omega
    rw [countValid, read_eq h72, ok_bind, readAll_succ h72, countP_cons]
    split_ifs with hout hvalid hvalid
    · have hrange := v.validShare_range hvalid
      rw [v.size_eq] at hout
      omega
    · rw [ih hdrop, add_zero]
    · rw [v.size_eq] at hout
      rw [v.verifySingleSignature_eq (by omega), ok_bind, hvalid, ih hdrop]
      simp only [if_true]
      congr 1
      omega
    · rw [v.size_eq] at hout
      rw [v.verifySingleSignature_eq (by omega), ok_bind, ih hdrop]
      simp only [hvalid, add_zero]
      rfl

/-- **`verify` counts the valid shares.** -/
theorem verify_eq (msg : List UInt8) (h : sig.length % 72 = 0) : v.verify msg sig =
      .ok (decide (v.threshold ≤ (sharesOf sig).countP (v.validShare msg))) := by
  have hlen : 72 * (sig.length / 72) = sig.length := by omega
  unfold verify
  rw [ensure_decide h]
  by_cases hfew : sig.length / 72 < v.threshold
  · have hcount := countP_le_length (l := sharesOf sig) (p := v.validShare msg)
    rw [show (sharesOf sig).length = sig.length / 72 from length_readAll (by omega)] at hcount
    rw [decide_eq_false (by omega)]
    simp [hfew]
  · simp only [if_neg hfew, v.countValid_eq msg (show 72 * (sig.length / 72) ≤ sig.length by omega),
      ok_bind, pure_eq_ok, zero_add]
    rfl

end EdDSAMultisigVerifier

/-! ## What the accumulator keeps -/

namespace EdDSASignatureAccumulator

variable (v : EdDSAMultisigVerifier)

/-- The accumulator does not ignore the share. -/
def inRange (share : SingleEdDSASignature) : Bool :=
  decide (share.id ≠ 0 ∧ share.id ≤ v.maxShareID)

/-- The accumulator after a share whose verification stays inside the vector of verifiers. -/
def addShare (acc : EdDSASignatureAccumulator) (share : SingleEdDSASignature) :
    EdDSASignatureAccumulator :=
  if inRange v share then
    { acc with
      signatures := insert SingleEdDSASignature.id share acc.signatures
      invalidShares :=
        if acc.verification && !v.validShare acc.expectedMsgDigest share then
          OrdSet.insert (fun a b => decide (a < b)) share.id acc.invalidShares
        else acc.invalidShares }
  else acc

variable {acc : EdDSASignatureAccumulator} {share : SingleEdDSASignature}

theorem foundInvalid_eq (h : acc.verification = true → share.id ≤ v.signersCount) :
    foundInvalid v acc share =
      .ok (acc.verification && !v.validShare acc.expectedMsgDigest share) := by
  unfold foundInvalid
  split_ifs with hver
  · rw [v.verifySingleSignature_eq (h hver), hver]
    rfl
  · simp [hver]

theorem add_eq (h : acc.verification = true → share.id ≠ v.maxShareID) :
    add v acc share.bytes = .ok (addShare v acc share) := by
  unfold add addShare
  rw [dif_pos share.size_eq]
  have hin : inRange v share = true ↔ ¬ (share.id = 0 ∨ v.maxShareID < share.id) := by
    unfold inRange
    rw [decide_eq_true_eq]
    omega
  by_cases hout : share.id = 0 ∨ v.maxShareID < share.id
  · rw [if_pos hout, if_neg fun h => hin.mp h hout]
  · have hid : acc.verification = true → share.id ≤ v.signersCount := by
      intro hver
      have := h hver
      unfold maxShareID at this hout
      omega
    rw [if_neg hout, if_pos (hin.mpr hout), foundInvalid_eq v hid]
    rfl

theorem add_index (hver : acc.verification = true) (hid : share.id = v.maxShareID) :
    add v acc share.bytes = .error .index := by
  have hpos : ¬ (share.id = 0 ∨ v.maxShareID < share.id) := by
    unfold maxShareID at hid ⊢
    omega
  have hnone : v.verifiers[share.id]? = none := by
    rw [List.getElem?_eq_none_iff, v.size_eq, hid]
    exact le_refl _
  have hindex : foundInvalid v acc share = .error .index := by
    unfold foundInvalid verifySingleSignature
    rw [if_pos hver, if_neg (fun h => hpos (.inl h)), hnone]
    rfl
  unfold add
  rw [dif_pos share.size_eq, if_neg hpos, hindex]
  rfl

/-- What is kept of a list of shares: the first one of every id in the range. -/
def kept (shares : List SingleEdDSASignature) : List SingleEdDSASignature :=
  ofList SingleEdDSASignature.id (shares.filter (inRange v))

section Fold

variable (acc : EdDSASignatureAccumulator) (shares : List SingleEdDSASignature)

theorem addAll_eq (h : acc.verification = true → ∀ share ∈ shares, share.id ≠ v.maxShareID) :
    addAll v acc (shares.map bytes) = .ok (shares.foldl (addShare v) acc) := by
  unfold addAll
  induction shares generalizing acc with
  | nil => rfl
  | cons share shares ih =>
    have hconst : (addShare v acc share).verification = acc.verification := by
      unfold addShare
      split_ifs <;> rfl
    rw [map_cons, run_cons, add_eq v fun hver => h hver share mem_cons_self, ok_bind, foldl_cons]
    refine ih (addShare v acc share) ?_
    intro hver share' hshare'
    rw [hconst] at hver
    exact h hver share' (mem_cons_of_mem _ hshare')

variable (verification : Bool) (msg : List UInt8)

/-- The accumulator after several shares, from an empty one. -/
def accumulated : EdDSASignatureAccumulator where
  verification := verification
  expectedMsgDigest := msg
  signatures := kept v shares
  invalidShares := OrdSet.ofList (fun a b => decide (a < b)) ((shares.filter fun share =>
    inRange v share && (verification && !v.validShare msg share)).map SingleEdDSASignature.id)

theorem foldl_addShare : shares.foldl (addShare v) ⟨verification, msg, [], []⟩ =
    accumulated v shares verification msg := by
  unfold accumulated
  induction shares using List.reverseRecOn with
  | nil => rfl
  | append_singleton shares share ih =>
    rw [foldl_append, ih, foldl_cons, foldl_nil]
    unfold addShare kept
    rw [filter_append, filter_append, map_append]
    by_cases hin : inRange v share = true
    · rw [if_pos hin, filter_cons_of_pos hin, filter_nil, ofList_concat]
      split_ifs with hbad
      · rw [filter_cons_of_pos (by rw [hin, hbad]; rfl), filter_nil,
          map_singleton, OrdSet.ofList_concat]
      · rw [filter_cons_of_neg (by simpa [hin] using hbad), filter_nil, map_nil, append_nil]
    · rw [if_neg hin, filter_cons_of_neg hin, filter_nil, append_nil,
        filter_cons_of_neg (by simp [hin]), filter_nil, map_nil, append_nil]

end Fold

theorem getFullSignedData_eq (order : IterationOrder SingleEdDSASignature)
    {acc : EdDSASignatureAccumulator} {len : ℕ} (h : acc.signatures.length * 72 ≤ len) :
    acc.getFullSignedData order len = .ok ((order.order acc.signatures).flatMap bytes) := by
  unfold getFullSignedData
  rw [decide_eq_true h]
  rfl

/-- Verification of what the accumulator writes counts the valid shares it keeps. -/
theorem verify_kept (order : IterationOrder SingleEdDSASignature) (msg : List UInt8)
    (shares : List SingleEdDSASignature) :
    v.verify msg ((order.order (kept v shares)).flatMap bytes) =
      .ok (decide (v.threshold ≤ (kept v shares).countP (v.validShare msg))) := by
  rw [v.verify_eq msg (by rw [length_flatMap_bytes]; omega), sharesOf_flatMap, order.countP_order]

end EdDSASignatureAccumulator

namespace EdDSAMultisigVerifier

/-- Four signers with threshold three; every key accepts the signature of ones. -/
def fourSigners : EdDSAMultisigVerifier where
  verifiers := replicate 5 fun _ signatureBytes => signatureBytes == replicate 64 1
  signersCount := 4
  threshold := 3
  size_eq := rfl

/-- A share of signer `id` with the signature of ones. -/
def shareOfOnes (id : UInt8) : List UInt8 :=
  id :: (replicate 7 0 ++ replicate 64 1)

end EdDSAMultisigVerifier

end ConcordBft
