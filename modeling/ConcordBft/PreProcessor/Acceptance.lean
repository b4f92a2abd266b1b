import ConcordBft.PreProcessor.Voting

/-!
# Acceptance of a completed request

When a request is completed the primary sends its result with `F + 1` of the signatures under its
hash, and every replica checks them. The check succeeds if each signature was made by the replica
it is stored for, over a result with the code that stands beside it, and if the data is what the
primary hashed. `Acceptable` is this invariant of an undecided request. The main result is
`accepted_of_safe`.
-/

namespace ConcordBft

open Verif Verif.Exec PreProcessResultHashCreator List RequestProcessingState ResultHashes Nat
open ResultAuth

/-! ## The keys of all replicas -/

/-- The hash function and the signatures of all replicas. -/
structure ResultKeys where
  sha : List UInt8 → Digest
  sign : ReplicaId → Digest → List UInt8
  verifySig : UInt16 → Digest → List UInt8 → Bool
  verifySig_sign : ∀ r hash, verifySig r hash (sign r hash) = true
  length_sign : ∀ r hash, (sign r hash).length < 2 ^ 32

namespace ResultKeys

variable (keys : ResultKeys)

def auth (r : ReplicaId) : ResultAuth where
  sha := keys.sha
  myReplicaId := r
  sign := keys.sign r
  verifySig := keys.verifySig

/-- The configuration of the primary, with authentication of the results. -/
def config (primary : ReplicaId) (F numOfReplicas : ℕ) : PreProcessConfig where
  toResultAuth := keys.auth primary
  numOfReplicas := numOfReplicas
  numOfRequiredEqualReplies := F + 1
  preExecutionResultAuthEnabled := true

/-- Only the replica itself makes its signatures, and it makes one for each hash. -/
def Unforged (r : ReplicaId) : Prop :=
  ∀ hash sig, keys.verifySig r hash sig = true → sig = keys.sign r hash

/-- Results of a request with one hash have one code. -/
def CodeBinding (clientId : UInt16) (reqSeqNum : UInt64) : Prop :=
  ∀ data code data' code',
    create keys.sha data code clientId reqSeqNum =
      create keys.sha data' code' clientId reqSeqNum → code = code'

end ResultKeys

/-! ## Signatures that the check accepts -/

/-- The sender signed the hash, and it is the hash of a result with the code. -/
structure PreProcessResultSignature.Genuine (keys : ResultKeys) (clientId : UInt16)
    (reqSeqNum : UInt64) (hash : Digest) (sig : PreProcessResultSignature) : Prop where
  verified : keys.verifySig sig.sender_replica hash sig.signature = true
  length_lt : sig.signature.length < 2 ^ 32
  outcome : ∃ data, hash = create keys.sha data sig.pre_process_result
    clientId reqSeqNum

def ResultHashes.Genuine (keys : ResultKeys) (clientId : UInt16) (reqSeqNum : UInt64)
    (hashes : ResultHashes) : Prop :=
  ∀ hash, ∀ sig ∈ hashes.signatures hash, sig.Genuine keys clientId reqSeqNum hash

variable {keys : ResultKeys} {clientId : UInt16} {reqSeqNum : UInt64} {hash : Digest}
  {sig : PreProcessResultSignature}

theorem ResultHashes.Genuine.emplace {hashes : ResultHashes}
    (h : hashes.Genuine keys clientId reqSeqNum) (hwf : hashes.WellFormed)
    (hsig : sig.Genuine keys clientId reqSeqNum hash) :
    (hashes.emplace hash sig).Genuine keys clientId reqSeqNum := by
  intro hash' sig' hmem
  rcases (mem_signatures_emplace hwf).mp hmem with hold | ⟨rfl, rfl, -⟩
  · exact h hash' sig' hold
  · exact hsig

variable {code : ResultCode} {data : List UInt8}

theorem PreProcessResultSignature.Genuine.own (r : ReplicaId)
    (hhash : hash = create keys.sha data code clientId reqSeqNum) :
    PreProcessResultSignature.Genuine keys clientId reqSeqNum hash ⟨keys.sign r hash, r, code⟩ :=
  ⟨keys.verifySig_sign r hash, keys.length_sign r hash, data, hhash⟩

theorem ResultAuth.verifies_of_genuine {r : ReplicaId}
    (h : sig.Genuine keys clientId reqSeqNum hash) (hr : keys.Unforged r) :
    (keys.auth r).verifies hash sig = true := by
  unfold verifies
  split_ifs with hown
  · have hmade : sig.signature = keys.sign r hash := by
      apply hr
      rw [show r = sig.sender_replica from hown]
      exact h.verified
    rw [hmade]
    exact beq_self_eq_true _
  · exact h.verified

/-! ## The result of the primary -/

namespace RequestProcessingState

variable {keys : ResultKeys} {primary : ReplicaId} {F numOfReplicas : ℕ} {clientId : UInt16}
  {reqSeqNum : UInt64} {s : RequestProcessingState}

/-- The message is built, and every replica whose signatures are not forged accepts it. -/
def Accepted (keys : ResultKeys) (primary : ReplicaId) (F numOfReplicas : ℕ)
    (s : RequestProcessingState) : Prop :=
  ∃ m, s.finalizePreProcessing (keys.config primary F numOfReplicas) = .ok m ∧
    ∀ r, keys.Unforged r →
      (keys.auth r).validatePreProcessResultSignatures F m = .ok none

/-- What the pointer, the length and the hash of the primary hold. -/
inductive Stored (keys : ResultKeys) (s : RequestProcessingState) : Prop
  | none (code : s.primaryPreProcessResult ≠ ResultCode.SUCCESS)
      (hash : s.primaryPreProcessResultHash = 0)
      (unused : s.preProcessingResultHashes.signatures 0 = [])
  | succeeded (code : s.primaryPreProcessResult = ResultCode.SUCCESS)
      (data : s.primaryPreProcessResultData = .buffer 0)
      (fits : s.primaryPreProcessResultLen ≤ s.resultBuffer.length)
      (hash : s.primaryPreProcessResultHash = create keys.sha
        (s.resultBuffer.take s.primaryPreProcessResultLen) ResultCode.SUCCESS s.clientId
        s.reqSeqNum)
  | failed (code : s.primaryPreProcessResult ≠ ResultCode.SUCCESS)
      (data : s.primaryPreProcessResultData = .buffer 6)
      (len : s.primaryPreProcessResultLen = sizeOfPreProcessResultData)
      (fits : 6 + sizeOfPreProcessResultData ≤ s.resultBuffer.length)
      (hash : s.primaryPreProcessResultHash = create keys.sha []
        s.primaryPreProcessResult s.clientId s.reqSeqNum)

variable {s' : RequestProcessingState}

theorem Stored.congr (h : Stored keys s)
    (hcode : s'.primaryPreProcessResult = s.primaryPreProcessResult)
    (hdata : s'.primaryPreProcessResultData = s.primaryPreProcessResultData)
    (hlen : s'.primaryPreProcessResultLen = s.primaryPreProcessResultLen)
    (hbuffer : s'.resultBuffer = s.resultBuffer)
    (hhash : s'.primaryPreProcessResultHash = s.primaryPreProcessResultHash)
    (hrequest : s'.clientId = s.clientId ∧ s'.reqSeqNum = s.reqSeqNum)
    (hunused : s.preProcessingResultHashes.signatures 0 = [] →
      s'.preProcessingResultHashes.signatures 0 = []) : Stored keys s' := by
  obtain ⟨hclient, hseq⟩ := hrequest
  cases h with
  | none code hash unused => exact .none (hcode ▸ code) (hhash.trans hash) (hunused unused)
  | succeeded code data fits hash =>
    refine .succeeded (hcode.trans code) (hdata.trans data) (by rwa [hlen, hbuffer]) ?_
    rw [hhash, hlen, hbuffer, hclient, hseq]
    exact hash
  | failed code data len fits hash =>
    refine .failed (hcode ▸ code) (hdata.trans data) (hlen.trans len) (by rwa [hbuffer]) ?_
    rw [hhash, hcode, hclient, hseq]
    exact hash

/-- An undecided request that can only be completed with an acceptable result. -/
structure Acceptable (keys : ResultKeys) (clientId : UInt16) (reqSeqNum : UInt64)
    (s : RequestProcessingState) : Prop where
  clientId_eq : s.clientId = clientId
  reqSeqNum_eq : s.reqSeqNum = reqSeqNum
  wellFormed : s.preProcessingResultHashes.WellFormed
  genuine : s.preProcessingResultHashes.Genuine keys clientId reqSeqNum
  stored : Stored keys s

/-- The bytes that are sent have the hash of the primary under the code it stands for. -/
theorem Stored.exists_read (h : Stored keys s)
    (hused : s.preProcessingResultHashes.signatures s.primaryPreProcessResultHash ≠ []) :
    ∃ data code, s.readResult = .ok data ∧ s.primaryPreProcessResultHash =
      create keys.sha data code s.clientId s.reqSeqNum := by
  cases h with
  | none code hash unused =>
    rw [hash] at hused
    exact absurd unused hused
  | succeeded code data fits hash =>
    refine ⟨_, _, ?_, hash⟩
    rw [readResult, data]
    exact slice_eq_ok (by rwa [zero_add])
  | failed code data len fits hash =>
    refine ⟨(s.resultBuffer.drop 6).take sizeOfPreProcessResultData,
      s.primaryPreProcessResult, ?_, ?_⟩
    · rw [readResult, data, len]
      exact slice_eq_ok fits
    · -- the hash of a failure does not cover the data
      rw [hash]
      apply congrArg keys.sha
      rw [hashed, hashed, if_neg code, if_neg code]

/-- The check recomputes the hash of the primary with the code of the first signature. -/
theorem accepted_of_read (hbinding : keys.CodeBinding s.clientId s.reqSeqNum)
    (hwf : s.preProcessingResultHashes.WellFormed)
    (hgenuine : s.preProcessingResultHashes.Genuine keys s.clientId s.reqSeqNum)
    (hread : s.readResult = .ok data)
    (hhash : s.primaryPreProcessResultHash = create keys.sha data code s.clientId s.reqSeqNum)
    (hquorum : F + 1 ≤
      (s.preProcessingResultHashes.signatures s.primaryPreProcessResultHash).length) :
    s.Accepted keys primary F numOfReplicas := by
  have hsigs := hgenuine s.primaryPreProcessResultHash
  have hordered := hwf.ordered s.primaryPreProcessResultHash
  unfold signatures at hsigs hordered hquorum
  rcases hget : OrdMap.get? s.primaryPreProcessResultHash s.preProcessingResultHashes with _ | sigs
  · rw [hget] at hquorum
    exact absurd hquorum (not_succ_le_zero F)
  · rw [hget, Option.getD_some] at hsigs hordered hquorum
    rcases sigs with _ | ⟨first, rest⟩
    · exact absurd hquorum (not_succ_le_zero F)
    · have hcode : first.pre_process_result = code := by
        obtain ⟨data', hdata'⟩ := (hsigs first mem_cons_self).outcome
        exact hbinding _ _ _ _ (hdata'.symm.trans hhash)
      refine ⟨⟨s.clientId, s.reqSeqNum,
        if s.agreedPreProcessResult = ResultCode.SUCCESS then ResultCode.UNKNOWN
        else s.agreedPreProcessResult, data,
        PreProcessResultSignature.serializeResultSignatures (first :: rest) (F + 1)⟩, ?_,
        fun r hr => ?_⟩
      · unfold finalizePreProcessing getPreProcessResultSignatures
        rw [hget, hread]
        rfl
      · have hne : (first :: rest).take (F + 1) ≠ [] := cons_ne_nil first _
        refine Iff.mpr (validates_iff (PreProcessResultSignature.deserialize_serialize
          hordered (fun sig hsig => (hsigs sig hsig).length_lt) hne))
          ⟨?_, first, rfl, fun sig hsig => ?_⟩
        · rw [length_take]
          exact min_eq_left hquorum
        · rw [hcode, hashWith]
          have hgood := hsigs sig (mem_of_mem_take hsig)
          rw [hhash] at hgood
          exact verifies_of_genuine hgood hr

/-! ## A vote -/

section

variable (h : s.Acceptable keys clientId reqSeqNum)

include h

theorem Acceptable.of_fields (agreed : ResultCode) (rightNow : Bool) (rejected : List ReplicaId) :
    { s with
      agreedPreProcessResult := agreed
      preprocessingRightNow := rightNow
      rejectedReplicaIds := rejected }.Acceptable keys clientId reqSeqNum :=
  ⟨h.clientId_eq, h.reqSeqNum_eq, h.wellFormed, h.genuine,
    h.stored.congr rfl rfl rfl rfl rfl ⟨rfl, rfl⟩ id⟩

/-- The hash of a vote is genuine, and it is not that of a primary without a result. -/
theorem Acceptable.addSignature {hash : Digest} (hsig : sig.Genuine keys clientId reqSeqNum hash)
    (hhash : hash ≠ 0) : (s.addSignature hash sig).Acceptable keys clientId reqSeqNum := by
  unfold RequestProcessingState.addSignature
  split_ifs
  · exact h
  · refine ⟨h.clientId_eq, h.reqSeqNum_eq, h.wellFormed.emplace hash sig,
      h.genuine.emplace h.wellFormed hsig, ?_⟩
    refine h.stored.congr rfl rfl rfl rfl rfl ⟨rfl, rfl⟩ fun hunused => ?_
    dsimp only
    rw [signatures_emplace h.wellFormed, if_neg hhash.symm]
    exact hunused

theorem Acceptable.report (hclient : s'.clientId = s.clientId) (hseq : s'.reqSeqNum = s.reqSeqNum)
    (hhashes : s'.preProcessingResultHashes = s.preProcessingResultHashes)
    (hstored : ∀ hashes count, Stored keys
      { s' with preProcessingResultHashes := hashes, numOfReceivedReplies := count })
    (hhash : ∃ data, s'.primaryPreProcessResultHash =
      create keys.sha data s'.primaryPreProcessResult s.clientId s.reqSeqNum) :
    (s'.report (keys.config primary F numOfReplicas)).Acceptable keys clientId reqSeqNum := by
  have hclient := hclient.trans h.clientId_eq
  have hseq := hseq.trans h.reqSeqNum_eq
  obtain ⟨data, hhash⟩ := hhash
  rw [h.clientId_eq, h.reqSeqNum_eq] at hhash
  unfold RequestProcessingState.report RequestProcessingState.addSignature
  split_ifs
  · exact ⟨hclient, hseq, hhashes ▸ h.wellFormed, hhashes ▸ h.genuine,
      hstored s'.preProcessingResultHashes s'.numOfReceivedReplies⟩
  · refine ⟨hclient, hseq, ?_, ?_, hstored _ _⟩
    · dsimp only
      rw [hhashes]
      exact h.wellFormed.emplace _ _
    · dsimp only
      rw [hhashes]
      exact h.genuine.emplace h.wellFormed (.own primary hhash)

theorem Acceptable.report_succeeded {buffer : List UInt8} {len : ℕ} (hfits : len ≤ buffer.length) :
    ((s.succeeded (keys.config primary F numOfReplicas) buffer len).report
      (keys.config primary F numOfReplicas)).Acceptable keys clientId reqSeqNum := by
  exact h.report rfl rfl rfl (fun _ _ => .succeeded rfl rfl hfits rfl) ⟨_, rfl⟩

theorem Acceptable.report_failed {buffer : List UInt8} (hcode : code ≠ ResultCode.SUCCESS)
    (hfits : 6 + sizeOfPreProcessResultData ≤ buffer.length) :
    ((s.failed (keys.config primary F numOfReplicas) buffer code).report
      (keys.config primary F numOfReplicas)).Acceptable keys clientId reqSeqNum := by
  refine h.report rfl rfl rfl (fun _ _ => .failed hcode rfl rfl ?_ rfl) ⟨_, rfl⟩
  unfold failed sizeOfPreProcessResultData at *
  simp only [length_append, length_leBytes, length_drop]
  omega

end

/-! ## The decision -/

/-- If the primary succeeded and enough replicas agree on another hash, they succeeded too, with a
result that is longer than a block id. -/
def NoErrorQuorum (required : ℕ) (s : RequestProcessingState) : Prop :=
  s.primaryPreProcessResult = ResultCode.SUCCESS → ∀ hash ≠ s.primaryPreProcessResultHash,
    required ≤ (s.preProcessingResultHashes.signatures hash).length →
      8 < s.primaryPreProcessResultLen ∧
        ∀ sig ∈ s.preProcessingResultHashes.signatures hash,
          sig.pre_process_result = ResultCode.SUCCESS

section

variable (h : s.Acceptable keys clientId reqSeqNum)

include h

theorem Acceptable.hasResult (hsuccess : s.primaryPreProcessResult = ResultCode.SUCCESS)
    (hlong : 8 < s.primaryPreProcessResultLen) : s.HasResult := by
  cases h.stored with
  | none code => exact absurd hsuccess code
  | succeeded code data fits => exact ⟨data, hlong, fits⟩
  | failed code => exact absurd hsuccess code

theorem Acceptable.accepted (hbinding : keys.CodeBinding clientId reqSeqNum) (hquorum : F + 1 ≤
      (s.preProcessingResultHashes.signatures s.primaryPreProcessResultHash).length) :
    s.Accepted keys primary F numOfReplicas := by
  obtain ⟨rfl, rfl, hwf, hgenuine, hstored⟩ := h
  have hused : s.preProcessingResultHashes.signatures s.primaryPreProcessResultHash ≠ [] := by
    intro hnil
    rw [hnil] at hquorum
    exact not_succ_le_zero F hquorum
  obtain ⟨data, code, hread, hhash⟩ := hstored.exists_read hused
  exact accepted_of_read hbinding hwf hgenuine hread hhash hquorum

/-- The corrected result is in the buffer, under the hash that the others reported. -/
theorem Acceptable.adopt (hresult : s.HasResult)
    (hsuccess : s.primaryPreProcessResult = ResultCode.SUCCESS) {hash : Digest}
    (hhash : hash = create keys.sha s.corrected ResultCode.SUCCESS s.clientId s.reqSeqNum) :
    (s.adopt (keys.config primary F numOfReplicas) hash).Acceptable keys clientId reqSeqNum := by
  have hlength := hresult.length_corrected
  have hown : hash = create keys.sha s.corrected
      s.primaryPreProcessResult clientId reqSeqNum := by
    rw [hsuccess, ← h.clientId_eq, ← h.reqSeqNum_eq]
    exact hhash
  refine ⟨h.clientId_eq, h.reqSeqNum_eq, h.wellFormed.emplace _ _,
    h.genuine.emplace h.wellFormed (.own primary hown), .succeeded hsuccess hresult.1 ?_ ?_⟩
  · unfold RequestProcessingState.adopt correctedBuffer
    dsimp only
    rw [length_append, hlength]
    exact le_add_right _ _
  · unfold RequestProcessingState.adopt correctedBuffer
    dsimp only
    rw [take_left' hlength]
    exact hhash

theorem Acceptable.define
    (hbinding : keys.CodeBinding clientId reqSeqNum) (herror : s.NoErrorQuorum (F + 1)) :
    ∃ r s', s.definePreProcessingConsensusResult (keys.config primary F numOfReplicas) =
        .ok (r, s') ∧
      (r = .CONTINUE ∧ (∃ agreed, s' = { s with agreedPreProcessResult := agreed }) ∨
        r = .COMPLETE ∧ s'.Accepted keys primary F numOfReplicas ∨ r = .CANCEL) := by
  have hsame : ∀ agreed, { s with agreedPreProcessResult := agreed }.Acceptable keys clientId
      reqSeqNum := fun _ => h.of_fields _ _ _
  have hresult := fun hsuccess hash hne hquorum =>
    h.hasResult hsuccess (herror hsuccess hash hne hquorum).1
  obtain ⟨r, s', hdefine, hdecided⟩ := define_decided
    (show 0 < (keys.config primary F numOfReplicas).numOfRequiredEqualReplies from succ_pos F)
    h.wellFormed hresult
  refine ⟨r, s', hdefine, ?_⟩
  cases hdecided with
  | agreed hleads =>
    obtain ⟨rest, -, hquorum⟩ := hleads
    exact .inr (.inl ⟨rfl, (hsame _).accepted hbinding hquorum⟩)
  | overwritten hleads hne hsuccess hagreed =>
    obtain ⟨rest, hsigs, hquorum⟩ := hleads
    exact absurd ((herror hsuccess _ hne hquorum).2 _ (by rw [hsigs]; exact mem_cons_self)) hagreed
  | @adopted hash first hleads hne hsuccess hfixed =>
    obtain ⟨rest, -, hquorum⟩ := hleads
    refine .inr (.inl ⟨rfl, ((hsame first.pre_process_result).adopt
      (hresult hsuccess hash hne hquorum) hsuccess hfixed).accepted hbinding ?_⟩)
    unfold RequestProcessingState.adopt
    dsimp only
    rw [signatures_emplace h.wellFormed, if_pos rfl]
    exact hquorum.trans (OrdSet.length_le_insert _ _ _)
  | cancelled => exact .inr (.inr rfl)
  | waiting => exact .inl ⟨rfl, _, rfl⟩
  | few | failed =>
    rcases waitForReplies_cases (keys.config primary F numOfReplicas) s with ⟨hr, -⟩ | ⟨hr, -⟩
    · exact .inr (.inr hr)
    · exact .inl ⟨hr, _, rfl⟩

end

end RequestProcessingState

/-! ## Runs -/

namespace Voting

variable {keys : ResultKeys} {primary : ReplicaId} {F numOfReplicas : ℕ} {clientId : UInt16}
  {reqSeqNum : UInt64} {v : Voting}

/-- What makes the result acceptable: a reply that is counted is signed by the replica it came
from, over a result with its code; the primary has room for what is read from its buffer; and no
`F + 1` replicas agree on an error while the primary succeeded. -/
def AcceptSafe (keys : ResultKeys) (primary : ReplicaId) (F numOfReplicas : ℕ) (v : Voting)
    (e : VotingEvent) : Prop :=
  v.outcome = none →
    match e with
    | .launched => True
    | .primaryPreProcessed buffer len code =>
      code = ResultCode.SUCCESS ∧ len ≤ buffer.length ∧
          ((v.state.succeeded (keys.config primary F numOfReplicas) buffer len).report
            (keys.config primary F numOfReplicas)).NoErrorQuorum (F + 1) ∨
        code ≠ ResultCode.SUCCESS ∧ code ≠ ResultCode.UNKNOWN ∧
          6 + sizeOfPreProcessResultData ≤ buffer.length
    | .reply m => m.status = ReplyStatus.STATUS_REJECT ∨
        keys.verifySig m.senderId m.resultsHash m.signature = true ∧
          (∃ data, m.resultsHash = create keys.sha data
            m.preProcessResult v.state.clientId v.state.reqSeqNum) ∧ m.resultsHash ≠ 0 ∧
          (v.state.handlePreProcessReplyMsg m).NoErrorQuorum (F + 1)

/-- The request is undecided, or its result is accepted if it was completed. -/
def Accepting (keys : ResultKeys) (primary : ReplicaId) (F numOfReplicas : ℕ) (clientId : UInt16)
    (reqSeqNum : UInt64) (v : Voting) : Prop :=
  v.outcome = none ∧ v.state.Acceptable keys clientId reqSeqNum ∨
    v.outcome.isSome = true ∧
      (v.outcome = some .COMPLETE → v.state.Accepted keys primary F numOfReplicas)

theorem accepting_hold {s : RequestProcessingState} (voters : Finset ReplicaId)
    (h : s.Acceptable keys clientId reqSeqNum) (hbinding : keys.CodeBinding clientId reqSeqNum)
    (herror : s.NoErrorQuorum (F + 1)) :
    ∃ v', (s.definePreProcessingConsensusResult (keys.config primary F numOfReplicas) >>=
        fun result => pure (hold voters result)) = .ok v' ∧
      Accepting keys primary F numOfReplicas clientId reqSeqNum v' := by
  obtain ⟨r, s', hdefine, hresult⟩ :=
    @RequestProcessingState.Acceptable.define _ primary _ numOfReplicas _ _ _ h hbinding herror
  refine ⟨hold voters (r, s'), by rw [hdefine]; rfl, ?_⟩
  rcases hresult with ⟨rfl, agreed, rfl⟩ | ⟨rfl, haccepted⟩ | rfl
  · exact .inl ⟨rfl, h.of_fields agreed _ _⟩
  · exact .inr ⟨rfl, fun _ => haccepted⟩
  · refine .inr ⟨rfl, fun hcomplete => ?_⟩
    cases hcomplete

theorem Accepting.step (h : Accepting keys primary F numOfReplicas clientId reqSeqNum v)
    (hbinding : keys.CodeBinding clientId reqSeqNum) {e : VotingEvent}
    (hsafe : AcceptSafe keys primary F numOfReplicas v e) :
    ∃ v', Voting.step (keys.config primary F numOfReplicas) v e = .ok v' ∧
      Accepting keys primary F numOfReplicas clientId reqSeqNum v' := by
  rcases h with ⟨hnone, hstate⟩ | hdecided
  · have hsafe := hsafe hnone
    unfold Voting.step
    rw [hnone, if_neg (by simp)]
    cases e with
    | launched => exact ⟨_, rfl, .inl ⟨rfl, hstate.of_fields _ true _⟩⟩
    | primaryPreProcessed buffer len code =>
      dsimp only
      rcases hsafe with ⟨rfl, hfits, herror⟩ | ⟨hcode, hknown, hroom⟩
      · rw [handlePrimaryPreProcessed_success hfits, ok_bind]
        exact accepting_hold _ (hstate.report_succeeded hfits) hbinding herror
      · rw [handlePrimaryPreProcessed_failed hcode hknown
          ((le_add_left _ _).trans hroom), ok_bind]
        refine accepting_hold _ (hstate.report_failed hcode hroom) hbinding fun hsuccess => ?_
        rw [RequestProcessingState.report, primaryPreProcessResult_addSignature] at hsuccess
        exact absurd hsuccess hcode
    | reply m =>
      dsimp only
      by_cases hreject : m.status = ReplyStatus.STATUS_REJECT
      · refine ⟨_, if_pos hreject, .inl ⟨rfl, ?_⟩⟩
        rw [handlePreProcessReplyMsg, if_neg (not_not_intro hreject)]
        exact hstate.of_fields _ _ _
      · obtain ⟨hverified, hhash, hzero, herror⟩ := hsafe.resolve_left hreject
        rw [handlePreProcessReplyMsg, if_pos hreject] at herror
        rw [if_neg hreject, handlePreProcessReplyMsg, if_pos hreject]
        rw [hstate.clientId_eq, hstate.reqSeqNum_eq] at hhash
        have hlength : m.signature.length < 2 ^ 32 := m.signature_lt.trans (by decide)
        exact accepting_hold _ (hstate.addSignature ⟨hverified, hlength, hhash⟩ hzero) hbinding
          herror
  · exact ⟨v, step_of_decided hdecided.1, .inr hdecided⟩

/-- **Acceptance.** As long as the counted replies are genuine, the results of the primary fit its
buffer and no quorum reports an error while the primary succeeded, the result of a request that is
completed is read from the buffer of the primary and passes the check of every replica whose
signatures are not forged. -/
theorem accepted_of_safe (keys : ResultKeys) (primary : ReplicaId) (F numOfReplicas : ℕ)
    (clientId : UInt16) (reqSeqNum : UInt64) (hbinding : keys.CodeBinding clientId reqSeqNum)
    (events : List VotingEvent)
    (hsafe : EveryStep (step (keys.config primary F numOfReplicas)) (start clientId reqSeqNum)
      (AcceptSafe keys primary F numOfReplicas) events) :
    ∃ v, run (step (keys.config primary F numOfReplicas)) (start clientId reqSeqNum) events =
        .ok v ∧
      (v.outcome = some .COMPLETE →
        ∃ m, v.state.finalizePreProcessing (keys.config primary F numOfReplicas) = .ok m ∧
          ∀ r, keys.Unforged r →
            (keys.auth r).validatePreProcessResultSignatures F m = .ok none) := by
  obtain ⟨v, hrun, hv⟩ := run_induction
    (P := fun _ v => Accepting keys primary F numOfReplicas clientId reqSeqNum v)
    (Or.inl ⟨rfl, rfl, rfl, ResultHashes.wellFormed_nil, (fun _ _ hsig => by cases hsig),
      .none (fun hcode => by cases hcode) rfl rfl⟩)
    (fun _ _ _ h hsafe => h.step hbinding hsafe) hsafe
  refine ⟨v, hrun, fun hcomplete => ?_⟩
  rcases hv with ⟨hnone, -⟩ | ⟨-, haccepted⟩
  · rw [hnone] at hcomplete
    cases hcomplete
  · exact haccepted hcomplete

/-! ## Results that are not accepted -/

variable (sha : List UInt8 → Digest)

/-- A replica signs with its number, whatever the hash. -/
def numberKeys : ResultKeys where
  sha := sha
  sign r _ := beBytes 2 r.toNat
  verifySig r _ sig := sig == beBytes 2 r.toNat
  verifySig_sign r _ := beq_self_eq_true _
  length_sign r _ := by
    rw [length_beBytes]
    decide

def numberOf (bytes : List UInt8) : Digest := BitVec.ofNat 256 (Cmf.beNat bytes)

theorem length_nil_lt : ([] : List UInt8).length < 2 ^ 16 := by decide

/-- A reply of a replica in a system with four replicas. -/
def replyWith (sender : ReplicaId) (status : ReplyStatus) (code : ResultCode) (hash : Digest)
    (signature : List UInt8) (hlength : signature.length < 2 ^ 16) : PreProcessReplyMsg where
  senderId := sender
  headerSenderId := sender
  clientId := 10
  reqOffsetInBatch := 0
  reqSeqNum := 5
  status := status
  preProcessResult := code
  resultsHash := hash
  signature := signature
  viewNum := 0
  signature_lt := hlength

def nineBytesHash : Digest :=
  create sha (List.replicate 9 1) ResultCode.SUCCESS 10 5

def errorHash : Digest :=
  create sha [] 3 10 5

def unsignedReply : PreProcessReplyMsg :=
  replyWith 1 ReplyStatus.STATUS_FAILED ResultCode.SUCCESS (nineBytesHash numberOf) [] length_nil_lt

def errorReply (sender : ReplicaId) : PreProcessReplyMsg :=
  replyWith sender ReplyStatus.STATUS_FAILED 3 (errorHash numberOf) (beBytes 2 sender.toNat)
    (by rw [length_beBytes]; decide)

/-- The outcome of a run, and what replica `3` says of the result. -/
def verdict (events : List VotingEvent) :
    Exec (Option PreProcessingResult × Exec (Option ResultError)) := do
  let cfg := (numberKeys numberOf).config 0 1 4
  let v ← run (step cfg) (start 10 5) events
  return (v.outcome, v.state.finalizePreProcessing cfg >>=
    ((numberKeys numberOf).auth 3).validatePreProcessResultSignatures 1)

/-- A reply without a signature completes the request, and the result is refused. If two replicas
report a failure and the primary succeeded, the result is read through a pointer that was
overwritten. -/
theorem refused_results : unsignedReply.validate ((numberKeys numberOf).auth 0) = true ∧
    (errorReply 1).validate ((numberKeys numberOf).auth 0) = true ∧
    (errorReply 2).validate ((numberKeys numberOf).auth 0) = true ∧
    verdict [nineBytes, .reply unsignedReply] =
      .ok (some .COMPLETE, .ok (some (.invalidSignature 1))) ∧
    verdict [nineBytes, .reply (errorReply 1), .reply (errorReply 2)] =
      .ok (some .COMPLETE, .error .access) := by
  refine ⟨rfl, rfl, rfl, ?_, ?_⟩ <;> decide +kernel

/-- A hash that keeps the code of a result. -/
def codeOf (bytes : List UInt8) : Digest :=
  BitVec.ofNat 256 (Cmf.beNat ((bytes.drop (bytes.length - 14)).take 4).reverse + 1)

theorem create_codeOf (data : List UInt8) (code : ResultCode) (clientId : UInt16)
    (reqSeqNum : UInt64) :
    create codeOf data code clientId reqSeqNum = BitVec.ofNat 256 (code.toNat + 1) := by
  unfold create hashed codeOf
  rw [drop_left' (by simp), take_left' (length_leBytes 4 _), leBytes,
    reverse_reverse, beNat_beBytes code.toNat_lt]

theorem codeBinding_codeOf (clientId : UInt16) (reqSeqNum : UInt64) :
    (numberKeys codeOf).CodeBinding clientId reqSeqNum := by
  intro data code data' code' h
  have h : BitVec.ofNat 256 (code.toNat + 1) = BitVec.ofNat 256 (code'.toNat + 1) := by
    rw [← create_codeOf data code clientId reqSeqNum, ← create_codeOf data' code' clientId]
    exact h
  have hnat := congrArg BitVec.toNat h
  have hcode := code.toNat_lt
  have hcode' := code'.toNat_lt
  rw [BitVec.toNat_ofNat, BitVec.toNat_ofNat, mod_eq_of_lt (by omega),
    mod_eq_of_lt (by omega)] at hnat
  exact UInt32.toNat_inj.mp (succ.inj hnat)

def signedReply : PreProcessReplyMsg :=
  replyWith 1 ReplyStatus.STATUS_GOOD ResultCode.SUCCESS (nineBytesHash codeOf) (beBytes 2 1)
    (by decide)

theorem accepted_of_signedReply : ∃ v m, run (step ((numberKeys codeOf).config 0 1 4)) (start 10 5)
        [.reply signedReply, nineBytes] = .ok v ∧ v.outcome = some .COMPLETE ∧
      v.state.finalizePreProcessing ((numberKeys codeOf).config 0 1 4) = .ok m ∧
      ((numberKeys codeOf).auth 3).validatePreProcessResultSignatures 1 m = .ok none := by
  have hsafe : EveryStep (step ((numberKeys codeOf).config 0 1 4)) (start 10 5)
      (AcceptSafe (numberKeys codeOf) 0 1 4) [.reply signedReply, nineBytes] := by
    refine everyStep_cons.mpr ⟨fun _ => Or.inr ⟨rfl, ⟨_, rfl⟩, by decide, ?_⟩, fun v hv => ?_⟩
    · exact nofun
    · obtain rfl := Except.ok.inj hv
      refine everyStep_cons.mpr ⟨fun _ => Or.inl ⟨rfl, by decide, ?_⟩,
        fun _ _ => everyStep_nil _ _ _⟩
      intro _ hash hother hquorum
      exact absurd (hquorum.trans_eq (congrArg (fun entry => (Option.getD entry []).length)
        (if_neg (Ne.symm hother)))) (Nat.not_succ_le_zero 1)
  obtain ⟨v, hrun, haccepted⟩ := accepted_of_safe (numberKeys codeOf) 0 1 4 10 5
    (codeBinding_codeOf 10 5) [.reply signedReply, nineBytes] hsafe
  have houtcome : v.outcome = some .COMPLETE := by
    rw [← Except.ok.inj hrun]
    decide +kernel
  obtain ⟨m, hm, hvalid⟩ := haccepted houtcome
  refine ⟨v, m, hrun, houtcome, hm, hvalid 3 fun hash sig hsig => ?_⟩
  exact beq_iff_eq.mp hsig

end Voting

end ConcordBft
