import ConcordBft.PreProcessor.Acceptance
import ConcordBft.PreProcessor.BatchRegistration

/-!
# Slots that stay in order

What is done with one slot is shown to return and to keep it in order (`Exec.Yields`):

1. `RequestProcessingState.Sound`: the votes are well formed and the result of the primary can be
   read. Then a decision returns if no quorum reports an error while the primary succeeded
   (`Sound.define`).
2. `RequestsBatch.Intact`: all requests in the slots are sound, and replies were collected for
   slots that exist. It is kept by votes (`VoteSafe`), results of jobs (`ResultSafe`), rounds of the
   timer (`NoErrorQuorums`), registrations and releases.
-/

namespace ConcordBft

open Verif Verif.Exec List RequestProcessingState ResultHashes Function

/-! ## Decisions that return -/

namespace RequestProcessingState

variable {cfg : PreProcessConfig} {s : RequestProcessingState}

/-- The place of the result of the primary. -/
inductive Readable (s : RequestProcessingState) : Prop
  | none (code : s.primaryPreProcessResult ≠ ResultCode.SUCCESS)
      (data : s.primaryPreProcessResultData = .null) (len : s.primaryPreProcessResultLen = 0)
  | succeeded (code : s.primaryPreProcessResult = ResultCode.SUCCESS)
      (data : s.primaryPreProcessResultData = .buffer 0)
      (fits : s.primaryPreProcessResultLen ≤ s.resultBuffer.length)
  | failed (code : s.primaryPreProcessResult ≠ ResultCode.SUCCESS)
      (data : s.primaryPreProcessResultData = .buffer 6)
      (fits : 6 + s.primaryPreProcessResultLen ≤ s.resultBuffer.length)

/-- The votes and the result of the primary are in order. -/
structure Sound (s : RequestProcessingState) : Prop where
  wellFormed : s.preProcessingResultHashes.WellFormed
  readable : s.Readable

theorem Readable.congr (h : s.Readable) {s' : RequestProcessingState}
    (hcode : s'.primaryPreProcessResult = s.primaryPreProcessResult)
    (hdata : s'.primaryPreProcessResultData = s.primaryPreProcessResultData)
    (hlen : s'.primaryPreProcessResultLen = s.primaryPreProcessResultLen)
    (hbuffer : s'.resultBuffer.length = s.resultBuffer.length) : s'.Readable := by
  cases h with
  | none code data len => exact .none (hcode ▸ code) (hdata.trans data) (hlen.trans len)
  | succeeded code data fits =>
    exact .succeeded (hcode.trans code) (hdata.trans data) (by rwa [hlen, hbuffer])
  | failed code data fits =>
    exact .failed (hcode ▸ code) (hdata.trans data) (by rwa [hlen, hbuffer])

theorem Readable.returns (h : s.Readable) : Returns s.readResult := by
  unfold readResult
  cases h with
  | none code data len =>
    rw [data, len]
    exact returns_ok _
  | succeeded code data fits =>
    rw [data]
    exact returns_slice.mpr (by rwa [Nat.zero_add])
  | failed code data fits =>
    rw [data]
    exact returns_slice.mpr fits

section

variable (h : s.Sound)

include h

theorem Sound.of_fields (agreed : ResultCode) (rightNow : Bool) (rejected : List ReplicaId) :
    { s with
      agreedPreProcessResult := agreed
      preprocessingRightNow := rightNow
      rejectedReplicaIds := rejected }.Sound :=
  ⟨h.wellFormed, h.readable.congr rfl rfl rfl rfl⟩

theorem Sound.addSignature (hash : Digest) (sig : PreProcessResultSignature) :
    (s.addSignature hash sig).Sound := by
  unfold RequestProcessingState.addSignature
  split_ifs
  · exact h
  · exact ⟨h.wellFormed.emplace hash sig, h.readable.congr rfl rfl rfl rfl⟩

theorem Sound.handleReply (m : PreProcessReplyMsg) : (s.handlePreProcessReplyMsg m).Sound := by
  unfold handlePreProcessReplyMsg
  split_ifs
  · exact h.addSignature _ _
  · exact h.of_fields _ _ _

theorem Sound.report_succeeded {buffer : List UInt8} {len : ℕ}
    (hfits : len ≤ buffer.length) : ((s.succeeded cfg buffer len).report cfg).Sound := by
  apply Sound.addSignature
  exact ⟨h.wellFormed, .succeeded rfl rfl hfits⟩

theorem Sound.report_failed {buffer : List UInt8} {code : ResultCode}
    (hcode : code ≠ ResultCode.SUCCESS) (hfits : 6 + sizeOfPreProcessResultData ≤ buffer.length) :
    ((s.failed cfg buffer code).report cfg).Sound := by
  apply Sound.addSignature
  refine ⟨h.wellFormed, .failed hcode rfl ?_⟩
  unfold failed sizeOfPreProcessResultData at *
  simp only [length_append, length_leBytes, length_drop]
  omega

theorem Sound.hasResult (hsuccess : s.primaryPreProcessResult = ResultCode.SUCCESS)
    (hlong : 8 < s.primaryPreProcessResultLen) : s.HasResult := by
  cases h.readable with
  | none code => exact absurd hsuccess code
  | succeeded code data fits => exact ⟨data, hlong, fits⟩
  | failed code => exact absurd hsuccess code

theorem Sound.adopt (cfg : PreProcessConfig) (hresult : s.HasResult)
    (hash : Digest) : (s.adopt cfg hash).Sound := by
  refine ⟨h.wellFormed.emplace _ _, h.readable.congr rfl rfl rfl ?_⟩
  have hfits := hresult.2.2
  unfold RequestProcessingState.adopt correctedBuffer
  dsimp only
  rw [length_append, hresult.length_corrected, length_drop]
  omega

theorem Sound.finalize
    (hsigs : s.preProcessingResultHashes.signatures s.primaryPreProcessResultHash ≠ []) :
    Returns (s.finalizePreProcessing cfg) := by
  obtain ⟨data, hdata⟩ := h.readable.returns
  unfold finalizePreProcessing
  rw [hdata]
  cases cfg.preExecutionResultAuthEnabled with
  | false => exact returns_ok _
  | true =>
    unfold getPreProcessResultSignatures
    unfold signatures at hsigs
    rcases hget : OrdMap.get? s.primaryPreProcessResultHash s.preProcessingResultHashes with
      _ | sigs
    · rw [hget] at hsigs
      exact absurd rfl hsigs
    · exact returns_ok _

/-- **Decisions return.** A completed request has a message. -/
theorem Sound.define (hpos : 0 < cfg.numOfRequiredEqualReplies)
    (herror : s.NoErrorQuorum cfg.numOfRequiredEqualReplies) :
    Yields (s.definePreProcessingConsensusResult cfg) fun result =>
      result.2.Sound ∧ (result.1 = .COMPLETE → Returns (result.2.finalizePreProcessing cfg)) := by
  have hsame : ∀ agreed, { s with agreedPreProcessResult := agreed }.Sound :=
    fun _ => h.of_fields _ _ _
  have hresult := fun hsuccess hash hne hquorum =>
    h.hasResult hsuccess (herror hsuccess hash hne hquorum).1
  obtain ⟨r, s', hdefine, hdecided⟩ := define_decided hpos h.wellFormed hresult
  refine ⟨(r, s'), hdefine, ?_⟩
  cases hdecided with
  | agreed hleads =>
    obtain ⟨rest, hsigs, -⟩ := hleads
    refine ⟨hsame _, fun _ => (hsame _).finalize ?_⟩
    exact hsigs ▸ cons_ne_nil _ _
  | overwritten hleads hne hsuccess hagreed =>
    obtain ⟨rest, hsigs, hquorum⟩ := hleads
    exact absurd ((herror hsuccess _ hne hquorum).2 _ (by rw [hsigs]; exact mem_cons_self)) hagreed
  | @adopted hash first hleads hne hsuccess hfixed =>
    obtain ⟨rest, -, hquorum⟩ := hleads
    have hadopted := (hsame first.pre_process_result).adopt cfg
      (hresult hsuccess _ hne hquorum) hash
    refine ⟨hadopted, fun _ => hadopted.finalize ?_⟩
    unfold RequestProcessingState.adopt
    dsimp only
    rw [signatures_emplace h.wellFormed, if_pos rfl]
    exact length_pos_iff.mp ((hpos.trans_le hquorum).trans_le (OrdSet.length_le_insert _ _ _))
  | cancelled => exact ⟨hsame _, fun hcomplete => by cases hcomplete⟩
  | waiting => exact ⟨h, fun hcomplete => by cases hcomplete⟩
  | few => exact ⟨h, fun hcomplete => absurd hcomplete waitForReplies_ne⟩
  | failed => exact ⟨hsame _, fun hcomplete => absurd hcomplete waitForReplies_ne⟩

end

end RequestProcessingState

/-! ## Buffers and histories -/

namespace PreProcessorConfig

/-- There is a quorum, the number of result buffers has 16 bits, and the history has room for a
request. -/
structure Fits (cfg : PreProcessorConfig) : Prop where
  required : 0 < cfg.numOfRequiredEqualReplies
  entries : cfg.numOfExternalClients * cfg.clientMaxBatchSize < 2 ^ 16
  history : cfg.historyHeight ≠ 0

variable {cfg : PreProcessorConfig}

theorem Fits.accessBuffer (hfits : cfg.Fits) {c : UInt16} (hc : cfg.isExternalClient c = true)
    {offset : ℕ} (hlt : offset < cfg.clientMaxBatchSize) : Returns (cfg.accessBuffer c offset) := by
  unfold isExternalClient at hc
  obtain ⟨hle, hc⟩ := Bool.and_eq_true_iff.mp hc
  have hle : cfg.firstClientId ≤ c.toNat := of_decide_eq_true hle
  have hc : c.toNat < cfg.firstClientId + cfg.numOfExternalClients := of_decide_eq_true hc
  have hinside : (c.toNat - cfg.firstClientId) * cfg.clientMaxBatchSize + offset <
      cfg.numOfReqEntries := by
    unfold numOfReqEntries
    rw [Nat.mod_eq_of_lt hfits.entries]
    calc (c.toNat - cfg.firstClientId) * cfg.clientMaxBatchSize + offset
        < (c.toNat - cfg.firstClientId) * cfg.clientMaxBatchSize + cfg.clientMaxBatchSize :=
          Nat.add_lt_add_left hlt _
      _ = (c.toNat - cfg.firstClientId + 1) * cfg.clientMaxBatchSize := (Nat.succ_mul _ _).symm
      _ ≤ cfg.numOfExternalClients * cfg.clientMaxBatchSize :=
          Nat.mul_le_mul_right _ (by omega)
  refine ⟨(), ?_⟩
  unfold PreProcessorConfig.accessBuffer getBufferOffset
  rw [ensure_decide hle, pure_eq_ok, ok_bind, if_pos hinside]
  rfl

theorem Fits.returnBuffer (hfits : cfg.Fits) {c : UInt16} (hc : cfg.isExternalClient c = true)
    {offset : ℕ} (hlt : offset < cfg.clientMaxBatchSize) : Returns (cfg.returnBuffer c offset) := by
  unfold PreProcessorConfig.returnBuffer
  split_ifs
  · exact hfits.accessBuffer hc hlt
  · exact returns_ok _

theorem Fits.archive (hfits : cfg.Fits) (history : List UInt64) (reqSeqNum : UInt64) :
    Returns (cfg.archive history reqSeqNum) := by
  unfold PreProcessorConfig.archive
  split_ifs with hfull
  · cases history with
    | nil => exact absurd (Nat.le_zero.mp hfull) hfits.history
    | cons oldest rest => exact returns_ok _
  · exact returns_ok _

end PreProcessorConfig

/-! ## Slots -/

namespace RequestsBatch

open RequestProcessingState (Sound)

variable {cfg : PreProcessorConfig} {b : RequestsBatch} {offset : ℕ} {c : UInt16}

/-- The requests in the slots are sound, and replies were collected for slots that exist. -/
structure Intact (cfg : PreProcessorConfig) (b : RequestsBatch) : Prop where
  sound : ∀ offset request, (b.requestsMap offset).request = some request →
    request.processing.Sound
  replies : ∀ offset ∈ b.repliesList, offset < cfg.clientMaxBatchSize

section

variable (h : b.Intact cfg)

include h

theorem Intact.of_fields {b' : RequestsBatch}
    (hmap : b'.requestsMap = b.requestsMap) (hreplies : b'.repliesList = b.repliesList) :
    b'.Intact cfg := ⟨hmap ▸ h.sound, hreplies ▸ h.replies⟩

theorem Intact.setSlot (slot : RequestState)
    (hslot : ∀ request, slot.request = some request → request.processing.Sound) :
    (b.setSlot offset slot).Intact cfg := by
  refine ⟨fun o request ho => ?_, h.replies⟩
  unfold RequestsBatch.setSlot at ho
  dsimp only at ho
  by_cases heq : o = offset
  · subst heq
    rw [update_self] at ho
    exact hslot request ho
  · rw [update_of_ne heq] at ho
    exact h.sound o request ho

theorem Intact.setRequest {request : SlotRequest}
    (hsound : request.processing.Sound) : (b.setRequest offset request).Intact cfg :=
  h.setSlot _ fun _ hrequest => Option.some.inj hrequest ▸ hsound

theorem Intact.released (request : SlotRequest) (history : List UInt64) :
    (b.released offset request history).Intact cfg :=
  (h.setSlot ⟨none, history⟩ fun _ hnone => by cases hnone).of_fields rfl rfl

theorem Intact.reset : b.resetBatchParams.Intact cfg :=
  ⟨h.sound, fun _ ho => absurd ho not_mem_nil⟩

theorem Intact.finalizeBatchIfCompleted : b.finalizeBatchIfCompleted.Intact cfg := by
  rcases b.finalizeBatchIfCompleted_cases with heq | heq
  · rw [heq]
    exact h
  · rw [heq]
    exact h.reset

theorem Intact.finalizeSafe (cid : Cid) : (b.finalizeBatchIfCompletedSafe cid).Intact cfg :=
  finalizeSafe_of h h.reset cid

theorem Intact.entered (cid : Cid) (size : ℕ) (pre : Bool) : (b.entered cid size pre).Intact cfg :=
  h.of_fields (b.entered_fields cid size pre).1 (b.entered_fields cid size pre).2.1

end

section

variable (hlt : offset < cfg.clientMaxBatchSize)

include hlt

theorem getRequestState_of_lt : b.getRequestState cfg offset = .ok (b.requestsMap offset) :=
  getRequestState_eq_ok.mpr ⟨hlt, rfl⟩

variable (h : b.Intact cfg)

include h

theorem Intact.setPreprocessingRightNow (set : Bool) :
    Yields (b.setPreprocessingRightNow cfg offset set) (Intact cfg) := by
  unfold RequestsBatch.setPreprocessingRightNow
  rw [getRequestState_of_lt hlt, ok_bind]
  rcases hslot : (b.requestsMap offset).request with _ | request
  · exact yields_ok h
  · exact yields_ok (h.setRequest ((h.sound offset request hslot).of_fields _ set _))

/-! ### Registration -/

theorem Intact.registerRequest {pre : Bool}
    (hslot : ∀ request, (b.requestsMap offset).request = some request → pre = true)
    (reqSeqNum : UInt64) (cid : Cid) (size : ℕ) (clientMsg : Bool) :
    Yields (b.registerRequest cfg c reqSeqNum cid size clientMsg pre offset) fun result =>
      result.2.Intact cfg := by
  have hentered := h.entered cid size pre
  unfold RequestsBatch.registerRequest
  rw [getRequestState_of_lt hlt, ok_bind]
  dsimp only
  rcases hrequest : (b.requestsMap offset).request with _ | request
  · exact yields_ok (hentered.setRequest ⟨wellFormed_nil,
      .none (fun hcode => by cases hcode) rfl rfl⟩)
  · obtain rfl := hslot request hrequest
    dsimp only
    cases request.preProcessRequest with
    | true => exact yields_ok hentered
    | false => exact yields_ok (hentered.setRequest (h.sound offset request hrequest))

theorem Intact.registerOnPrimary (reqSeqNum : UInt64) (cid : Cid) (size : ℕ) :
    Yields (b.registerRequestOnPrimaryReplica cfg c reqSeqNum cid size offset) fun result =>
      result.2.Intact cfg := by
  unfold registerRequestOnPrimaryReplica
  refine Intact.registerRequest hlt ?_ (fun _ _ => rfl) _ _ _ _
  split_ifs
  · exact h
  · unfold registerBatch
    split_ifs
    · exact h
    · exact h.of_fields rfl rfl

end

variable {request : SlotRequest}

theorem sound_resend (h : request.processing.Sound) :
    (resendPreProcessRequest request).processing.Sound := by
  unfold resendPreProcessRequest
  split_ifs
  · exact h.of_fields _ _ _
  · exact h

/-! ### Releases -/

section Releases

variable (hfits : cfg.Fits) (hc : cfg.isExternalClient c = true) (h : b.Intact cfg)

include hfits hc h

section

variable (hlt : offset < cfg.clientMaxBatchSize)

include hlt

theorem Intact.release (result : PreProcessingResult) :
    Yields (b.releaseClientPreProcessRequest cfg c offset result) (Intact cfg) := by
  unfold releaseClientPreProcessRequest
  rcases (b.requestsMap offset).request with _ | request
  · exact yields_ok h
  · have harchived : Returns (archived cfg (b.requestsMap offset) request result) := by
      unfold archived
      split_ifs
      · exact hfits.archive _ _
      · exact returns_ok _
    exact harchived.yields.bind fun history _ => (hfits.returnBuffer hc hlt).yields.bind fun _ _ =>
      yields_ok (h.released request history)

theorem Intact.releaseSafe (result : PreProcessingResult) :
    Yields (b.releaseClientPreProcessRequestSafe cfg c offset result) (Intact cfg) := by
  unfold releaseClientPreProcessRequestSafe
  rw [getRequestState_of_lt hlt, ok_bind]
  exact h.release hfits hc hlt result

theorem Intact.hold (hslot : (b.requestsMap offset).request = some request)
    {result : PreProcessingResult} (hcomplete : result = .COMPLETE →
      request.preProcessRequest = true ∧
        Returns (request.processing.finalizePreProcessing cfg.toPreProcessConfig)) (cid : Cid) :
    Yields (b.holdCompleteOrCancelRequest cfg result c offset cid) (Intact cfg) := by
  cases result with
  | COMPLETE =>
    obtain ⟨hpre, hmsg⟩ := hcomplete rfl
    unfold holdCompleteOrCancelRequest finalizePreProcessing
    rw [getRequestState_of_lt hlt, ok_bind, hslot]
    dsimp only
    rw [if_pos hpre]
    exact hmsg.yields.bind fun _ _ => (h.release hfits hc hlt _).bind fun b₁ h₁ =>
      yields_ok (h₁.finalizeSafe cid)
  | CANCEL =>
    unfold holdCompleteOrCancelRequest cancelPreProcessing
    rw [getRequestState_of_lt hlt, ok_bind]
    split_ifs
    · unfold cancelRequestAndBatchIfCompleted
      split_ifs
      · exact yields_ok h
      · exact (h.release hfits hc hlt _).bind fun b₁ h₁ => yields_ok h₁.finalizeBatchIfCompleted
    · exact h.release hfits hc hlt _
  | NONE | CONTINUE | EXPIRED | FAILED | CANCELLED_BY_PRIMARY => exact yields_ok h

theorem Intact.decideRequest (hsound : request.processing.Sound)
    (hpre : request.preProcessRequest = true)
    (herror : request.processing.NoErrorQuorum cfg.numOfRequiredEqualReplies) (cid : Cid)
    (resend : Bool) : Yields (b.decideRequest cfg c offset cid request resend) (Intact cfg) := by
  unfold RequestsBatch.decideRequest
  refine (hsound.define hfits.required herror).bind fun result hresult => ?_
  obtain ⟨result, processing⟩ := result
  obtain ⟨hsound', hcomplete⟩ := hresult
  dsimp only
  refine Intact.hold hfits hc ?_ hlt (request_setRequest _ _ _) (fun heq => ?_) cid
  · apply h.setRequest
    split_ifs
    · exact sound_resend hsound'
    · exact hsound'
  · -- a completed request is not sent again
    rw [if_neg fun hresend => by rw [heq] at hresend; exact absurd hresend.2 (by decide)]
    exact ⟨hpre, hcomplete heq⟩

end

theorem Intact.cancelBatch (cid : Cid) (status : PreProcessingResult) :
    Yields (b.cancelBatchAndReleaseRequests cfg c cid status) (Intact cfg) := by
  unfold cancelBatchAndReleaseRequests
  split_ifs
  · exact yields_ok h
  · refine (yields_foldlM (fun b₁ o ho h₁ => ?_) h).bind fun b₁ h₁ => yields_ok h₁.reset
    exact h₁.release hfits hc (mem_range.mp ho) status

/-! ### Votes, jobs and the timer -/

/-- The vote is about a slot that exists, and the decision after it returns: the primary has sent
the request, and no quorum reports an error while the primary succeeded. -/
def VoteSafe (cfg : PreProcessorConfig) (b : RequestsBatch) (m : PreProcessReplyMsg) : Prop :=
  m.reqOffsetInBatch.toNat < cfg.clientMaxBatchSize ∧
    (m.status ≠ ReplyStatus.STATUS_REJECT → ∀ request,
      (b.requestsMap m.reqOffsetInBatch.toNat).request = some request →
      request.processing.reqSeqNum = m.reqSeqNum → request.preProcessRequest = true ∧
        (request.processing.handlePreProcessReplyMsg m).NoErrorQuorum
          cfg.numOfRequiredEqualReplies)

theorem Intact.handleReply {m : PreProcessReplyMsg} (hclient : m.clientId = c)
    (hsafe : VoteSafe cfg b m) (cid : Cid) :
    Yields (b.handleSinglePreProcessReplyMsg cfg m cid) (Intact cfg) := by
  obtain ⟨hlt, hsafe⟩ := hsafe
  unfold handleSinglePreProcessReplyMsg
  rw [getRequestState_of_lt hlt, ok_bind, hclient]
  rcases hslot : (b.requestsMap m.reqOffsetInBatch.toNat).request with _ | request
  · exact yields_ok h
  · have hsound := (h.sound _ request hslot).handleReply m
    dsimp only
    split_ifs with hother hreject
    · exact yields_ok h
    · exact yields_ok (h.setRequest hsound)
    · obtain ⟨hpre, herror⟩ := hsafe hreject request hslot (not_not.mp hother)
      apply h.decideRequest hfits hc hlt
      · exact hsound
      · exact hpre
      · exact herror

/-- The result of a job of the primary can be stored and decided on. -/
def ResultSafe (cfg : PreProcessorConfig) (request : SlotRequest) (buffer : List UInt8) (len : ℕ)
    (code : ResultCode) : Prop :=
  request.preProcessRequest = true ∧
    (code = ResultCode.SUCCESS ∧ len ≤ buffer.length ∧
        ((request.processing.succeeded cfg.toPreProcessConfig buffer len).report
          cfg.toPreProcessConfig).NoErrorQuorum cfg.numOfRequiredEqualReplies ∨
      code ≠ ResultCode.SUCCESS ∧ code ≠ ResultCode.UNKNOWN ∧
        6 + sizeOfPreProcessResultData ≤ buffer.length)

section

variable (hlt : offset < cfg.clientMaxBatchSize)

include hlt

theorem Intact.handlePrimary {buffer : List UInt8} {len : ℕ} {code : ResultCode}
    (hsafe : ∀ request, (b.requestsMap offset).request = some request →
      ResultSafe cfg request buffer len code) (cid : Cid) :
    Yields (b.handleReqPreProcessedByPrimary cfg c offset cid buffer len code) (Intact cfg) := by
  unfold handleReqPreProcessedByPrimary
  rw [getRequestState_of_lt hlt, ok_bind]
  rcases hslot : (b.requestsMap offset).request with _ | request
  · exact yields_ok h
  · dsimp only
    have hsound := h.sound offset request hslot
    obtain ⟨hpre, ⟨rfl, hlen, herror⟩ | ⟨hcode, hknown, hroom⟩⟩ := hsafe request hslot
    · rw [handlePrimaryPreProcessed_success hlen, ok_bind]
      apply h.decideRequest hfits hc hlt
      · exact hsound.report_succeeded hlen
      · exact hpre
      · exact herror
    · rw [handlePrimaryPreProcessed_failed hcode hknown
        ((Nat.le_add_left _ _).trans hroom), ok_bind]
      apply h.decideRequest hfits hc hlt
      · exact hsound.report_failed hcode hroom
      · exact hpre
      · intro hsuccess
        rw [RequestProcessingState.report, primaryPreProcessResult_addSignature] at hsuccess
        exact absurd hsuccess hcode

theorem Intact.sendReply : Yields (b.sendReply cfg c offset) (Intact cfg) := by
  unfold RequestsBatch.sendReply
  split_ifs with hprocess
  · unfold releaseReqsAndSendBatchedReplyIfCompleted
    rw [if_neg (not_not_intro hprocess)]
    have hreplies : ∀ o ∈ b.repliesList ++ [offset], o < cfg.clientMaxBatchSize := by
      intro o ho
      rcases mem_append.mp ho with hmem | hmem
      · exact h.replies o hmem
      · exact mem_singleton.mp hmem ▸ hlt
    have hpushed : { b with repliesList := b.repliesList ++ [offset] }.Intact cfg :=
      ⟨h.sound, hreplies⟩
    dsimp only
    split_ifs
    · exact yields_ok hpushed
    · refine (yields_foldlM (fun b₁ o ho h₁ => ?_) hpushed).bind fun b₁ h₁ => yields_ok h₁.reset
      exact h₁.releaseSafe hfits hc (hreplies o (mem_reverse.mp ho)) _
  · exact h.releaseSafe hfits hc hlt _

theorem Intact.handleNonPrimary :
    Yields (b.handleReqPreProcessedByNonPrimary cfg c offset) (Intact cfg) := by
  unfold handleReqPreProcessedByNonPrimary
  exact (h.sendReply hfits hc hlt).bind fun b₁ h₁ => h₁.setPreprocessingRightNow hlt false

/-- No request of the client has a quorum that reports an error while the primary succeeded. -/
def NoErrorQuorums (cfg : PreProcessorConfig) (b : RequestsBatch) : Prop :=
  ∀ offset request, (b.requestsMap offset).request = some request →
    request.processing.NoErrorQuorum cfg.numOfRequiredEqualReplies

variable {replica : InternalReplicaApi} {elapsed : ℕ → Bool}

/-- One slot in a round of the timer. The slots behind it stay as they are. -/
theorem Intact.timer_slot (herror : replica.isCurrentPrimary = true → ∀ request,
      (b.requestsMap offset).request = some request →
      request.processing.NoErrorQuorum cfg.numOfRequiredEqualReplies) (expired : ℕ) :
    Yields (handlePossiblyExpiredRequest cfg replica c elapsed (b, expired) offset)
      fun acc => acc.1.Intact cfg ∧ ∀ o, o ≠ offset → acc.1.requestsMap o = b.requestsMap o := by
  unfold handlePossiblyExpiredRequest
  dsimp only
  rcases hslot : (b.requestsMap offset).request with _ | request
  · exact yields_ok ⟨h, fun _ _ => rfl⟩
  · have hsound := h.sound offset request hslot
    dsimp only
    split_ifs with htimeout hprimary
    · obtain ⟨b₁, hb₁, h₁⟩ := h.release hfits hc hlt .EXPIRED
      rw [hb₁, ok_bind]
      refine yields_ok ⟨h₁, fun o ho => ?_⟩
      rcases release_cases hb₁ with ⟨-, rfl⟩ | ⟨request', history, -, rfl⟩
      · rfl
      · exact update_of_ne ho _ _
    · refine (hsound.define hfits.required (herror hprimary request hslot)).bind
        fun result hresult => ?_
      obtain ⟨result, processing⟩ := result
      refine yields_ok ⟨h.setRequest ?_, fun o ho => update_of_ne ho _ _⟩
      split_ifs
      · exact sound_resend hresult.1
      · exact hresult.1
    · exact yields_ok ⟨h, fun _ _ => rfl⟩

end

theorem Intact.timer_slots {offsets : List ℕ} (hnodup : offsets.Nodup)
    (hlt : ∀ o ∈ offsets, o < cfg.clientMaxBatchSize)
    (herror : replica.isCurrentPrimary = true → ∀ o ∈ offsets, ∀ request,
      (b.requestsMap o).request = some request →
      request.processing.NoErrorQuorum cfg.numOfRequiredEqualReplies) (expired : ℕ) :
    Yields (offsets.foldlM (handlePossiblyExpiredRequest cfg replica c elapsed) (b, expired))
      fun acc => acc.1.Intact cfg := by
  induction offsets generalizing b expired with
  | nil => exact yields_ok h
  | cons offset offsets ih =>
    obtain ⟨hnew, hnodup⟩ := nodup_cons.mp hnodup
    rw [foldlM_cons]
    refine (h.timer_slot hfits hc (hlt offset mem_cons_self) (fun hprimary =>
      herror hprimary offset mem_cons_self) expired).bind fun acc hacc => ?_
    refine ih hacc.1 hnodup (fun o ho => hlt o (mem_cons_of_mem _ ho))
      (fun hprimary o ho request hslot => ?_) acc.2
    rw [hacc.2 o fun heq => hnew (heq ▸ ho)] at hslot
    exact herror hprimary o (mem_cons_of_mem _ ho) request hslot

theorem Intact.timer (herror : replica.isCurrentPrimary = true → b.NoErrorQuorums cfg) :
    Yields (b.handlePossiblyExpiredRequests cfg replica c elapsed) (Intact cfg) := by
  unfold handlePossiblyExpiredRequests
  refine (h.timer_slots hfits hc nodup_range (fun o ho => mem_range.mp ho)
    (fun hprimary o _ => herror hprimary o) 0).bind fun acc hacc => ?_
  refine yields_ok ?_
  split_ifs
  · exact hacc.reset
  · exact hacc

end Releases

end RequestsBatch

end ConcordBft
