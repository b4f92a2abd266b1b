import ConcordBft.PreProcessor.IntactSlots
import ConcordBft.PreProcessor.BatchesEnd

/-!
# Messages that do not crash the pre-processor

`PreProcessor.Intact` says that there is an intact entry for every external client and for nobody
else, and that the jobs are jobs of such clients. `CrashSafe` is what the messages, the ends of jobs
and the timer must meet, and `never_crashes` the result. Messages that pass their validation need
not meet it (`crashing_messages`).
-/

namespace ConcordBft

open Verif Verif.Exec List PreProcessor

/-! ## Messages -/

namespace PreProcessor

variable {cfg : PreProcessorConfig} {s : PreProcessor} {c : UInt16} {b : RequestsBatch}

/-- The external clients have intact entries, and there are no others. -/
structure Intact (cfg : PreProcessorConfig) (s : PreProcessor) : Prop where
  entries : ∀ c, (s.ongoingReqBatches c).isSome = cfg.isExternalClient c
  batches : ∀ c b, s.ongoingReqBatches c = some b → b.Intact cfg
  jobs : ∀ job ∈ s.jobs, cfg.isExternalClient job.clientId = true ∧
    job.reqOffsetInBatch < cfg.clientMaxBatchSize

section

variable (h : s.Intact cfg)

include h

section

variable (hc : cfg.isExternalClient c = true)

include hc

theorem Intact.batchOf :
    Yields (s.batchOf c) fun b => s.ongoingReqBatches c = some b ∧ b.Intact cfg := by
  obtain ⟨b, hb⟩ := Option.isSome_iff_exists.mp ((h.entries c).trans hc)
  exact ⟨b, batchOf_eq_ok.mpr hb, hb, h.batches c b hb⟩

theorem Intact.setBatch (hb : b.Intact cfg) : (s.setBatch c b).Intact cfg := by
  unfold PreProcessor.setBatch
  refine ⟨fun c' => ?_, fun c' b' hb' => ?_, h.jobs⟩
  · dsimp only
    rw [Function.update_apply]
    split_ifs with heq
    · rw [heq, hc]
      rfl
    · exact h.entries c'
  · dsimp only at hb'
    rw [Function.update_apply] at hb'
    split_ifs at hb'
    · exact Option.some.inj hb' ▸ hb
    · exact h.batches c' b' hb'

theorem Intact.onBatch {f : RequestsBatch → Exec RequestsBatch}
    (hf : ∀ b, s.ongoingReqBatches c = some b → b.Intact cfg →
      Yields (f b) fun b' => b'.Intact cfg) : Yields (s.onBatch c f) (Intact cfg) := by
  unfold PreProcessor.onBatch
  exact (h.batchOf hc).bind fun b hb => (hf b hb.1 hb.2).bind fun b' hb' =>
    yields_ok (h.setBatch hc hb')

end

theorem Intact.launch (job : PreProcessJob) (hc : cfg.isExternalClient job.clientId = true)
    (hlt : job.reqOffsetInBatch < cfg.clientMaxBatchSize) :
    Yields (s.launchAsyncReqPreProcessingJob cfg job) (Intact cfg) := by
  unfold launchAsyncReqPreProcessingJob
  refine (h.onBatch hc fun b _ hb => hb.setPreprocessingRightNow hlt true).bind fun s₁ h₁ => ?_
  refine yields_ok ⟨h₁.entries, h₁.batches, fun job' hjob' => ?_⟩
  rcases mem_append.mp hjob' with hmem | hmem
  · exact h₁.jobs job' hmem
  · exact mem_singleton.mp hmem ▸ ⟨hc, hlt⟩

/-! ### Requests of clients -/

theorem Intact.clientRequest {m : ClientPreProcessRequestMsg}
    (hc : cfg.isExternalClient m.clientProxyId = true) {offset : ℕ}
    (hlt : offset < cfg.clientMaxBatchSize) (cid : Cid) (size : ℕ) :
    Yields (s.handleSingleClientRequestMessage cfg m offset cid size) fun result =>
      result.2.Intact cfg := by
  unfold handleSingleClientRequestMessage
  refine (h.batchOf hc).bind fun b hb => ?_
  rw [RequestsBatch.getRequestState_of_lt hlt, ok_bind]
  rcases hdeclined : s.declines (b.requestsMap offset) m with _ | _
  · rw [if_neg Bool.false_ne_true]
    cases s.replica.isCurrentPrimary with
    | true =>
      rw [if_pos rfl]
      refine (hb.2.registerOnPrimary hlt _ _ _).bind fun result hresult => ?_
      obtain ⟨registered, b'⟩ := result
      have h' := h.setBatch hc hresult
      cases registered with
      | true =>
        exact (h'.launch ⟨m.clientProxyId, offset, cid, true⟩ hc hlt).bind fun s₁ h₁ =>
          yields_ok h₁
      | false => exact yields_ok h'
    | false =>
      rw [if_neg Bool.false_ne_true]
      refine (hb.2.registerRequest hlt (fun request hslot => ?_) _ _ _ _).bind
        fun result hresult => yields_ok (h.setBatch hc hresult)
      -- an occupied slot declines the request
      unfold declines at hdeclined
      rw [hslot] at hdeclined
      cases hdeclined
  · exact yields_ok h

theorem Intact.handleClientMsgs {m : ClientBatchRequestMsg} {msgs : List ClientPreProcessRequestMsg}
    (hids : ∀ msg ∈ msgs, cfg.isExternalClient msg.clientProxyId = true) {offset : ℕ}
    (hlt : offset + msgs.length ≤ cfg.clientMaxBatchSize) (skip : ℕ) :
    Yields (handleClientMsgs cfg m msgs offset skip s) fun result => result.2.Intact cfg := by
  induction msgs generalizing s offset skip with
  | nil => exact yields_ok h
  | cons msg msgs ih =>
    rw [length_cons] at hlt
    unfold handleClientMsgs
    refine (h.clientRequest (hids msg mem_cons_self) (by omega) _ _).bind
      fun result hresult => ?_
    exact ih hresult (fun msg' hmsg' => hids msg' (mem_cons_of_mem _ hmsg')) (by omega) _

theorem Intact.clientBatch {m : ClientBatchRequestMsg}
    (hsafe : s.checkClientBatchMsgCorrectness cfg m = true →
      cfg.isExternalClient m.clientId = true ∧
        ∀ msg ∈ m.clientMsgs, cfg.isExternalClient msg.clientProxyId = true) :
    Yields (s.onClientBatchRequestMsg cfg m) (Intact cfg) := by
  unfold onClientBatchRequestMsg
  rcases hvalid : s.checkClientBatchMsgCorrectness cfg m with _ | _
  · exact yields_ok h
  · obtain ⟨hc, hids⟩ := hsafe hvalid
    have hlength : m.clientMsgs.length ≤ cfg.clientMaxBatchSize := by
      unfold checkClientBatchMsgCorrectness at hvalid
      exact of_decide_eq_true (Bool.and_eq_true_iff.mp (Bool.and_eq_true_iff.mp hvalid).1).2
    rw [if_pos rfl]
    refine (h.batchOf hc).bind fun b hb => ?_
    cases b.batchRegistered with
    | true => exact yields_ok h
    | false =>
      rw [if_neg Bool.false_ne_true]
      refine (h.handleClientMsgs hids (by omega) 0).bind fun result hresult => ?_
      obtain ⟨skip, s₁⟩ := result
      dsimp only
      split_ifs
      · exact yields_ok hresult
      · exact hresult.onBatch hc fun b₁ _ hb₁ => yields_ok (hb₁.of_fields rfl rfl)
      · exact yields_ok hresult

end

/-! ### Requests of the primary -/

section Requests

variable (hfits : cfg.Fits)
include hfits

theorem Intact.preProcessRequest (h : s.Intact cfg) {m : PreProcessRequestMsg}
    (hsafe : s.checkPreProcessReqPrerequisites = true → cfg.isExternalClient m.clientId = true ∧
      m.reqOffsetInBatch.toNat < cfg.clientMaxBatchSize) (cid : Cid) (size : ℕ) :
    Yields (s.handleSinglePreProcessRequestMsg cfg m cid size) fun result =>
      result.2.Intact cfg := by
  unfold handleSinglePreProcessRequestMsg
  rcases hpre : s.checkPreProcessReqPrerequisites with _ | _
  · exact yields_ok h
  · obtain ⟨hc, hlt⟩ := hsafe hpre
    rw [if_pos rfl]
    refine (h.batchOf hc).bind fun b hb => ?_
    have hregister : Yields (s.registerPreProcessRequestMsg cfg b m cid size) fun result =>
        result.2.Intact cfg := by
      unfold registerPreProcessRequestMsg
      refine (hb.2.registerRequest hlt (fun _ _ => rfl) _ _ _ _).bind fun result hresult => ?_
      obtain ⟨registered, b'⟩ := result
      have h' := h.setBatch hc hresult
      cases registered with
      | true =>
        exact (h'.launch ⟨m.clientId, m.reqOffsetInBatch.toNat, cid, false⟩ hc hlt).bind
          fun s₁ h₁ => yields_ok h₁
      | false => exact yields_ok h'
    rw [RequestsBatch.getRequestState_of_lt hlt, ok_bind]
    rcases (b.requestsMap m.reqOffsetInBatch.toNat).request with _ | request
    · dsimp only
      split_ifs
      · exact yields_ok h
      · exact hregister
    · dsimp only
      split_ifs
      · exact (hfits.accessBuffer hc hlt).yields.bind fun _ _ => yields_ok h
      · exact (hb.2.release hfits hc hlt _).bind fun b' hb' => yields_ok (h.setBatch hc hb')
      · exact hregister

theorem Intact.handlePreProcessRequestMsgs {cid : Cid} {size : ℕ} {msgs : List PreProcessRequestMsg}
    (h : s.Intact cfg) (hsafe : ∀ msg ∈ msgs, cfg.isExternalClient msg.clientId = true ∧
      msg.reqOffsetInBatch.toNat < cfg.clientMaxBatchSize) (skip : ℕ) :
    Yields (handlePreProcessRequestMsgs cfg cid size msgs skip s) fun result =>
      result.2.Intact cfg := by
  induction msgs generalizing s skip with
  | nil => exact yields_ok h
  | cons msg msgs ih =>
    unfold handlePreProcessRequestMsgs
    refine (h.preProcessRequest hfits (fun _ => hsafe msg mem_cons_self) _ _).bind
      fun result hresult => ?_
    exact ih hresult (fun msg' hmsg' => hsafe msg' (mem_cons_of_mem _ hmsg')) _

theorem Intact.batchRequest (h : s.Intact cfg) {m : PreProcessBatchRequestMsg}
    (hsafe : s.checkPreProcessBatchReqMsgCorrectness cfg m = true →
      cfg.isExternalClient m.clientId = true ∧
        ∀ e ∈ m.elements, e.reqOffsetInBatch.toNat < cfg.clientMaxBatchSize) :
    Yields (s.onPreProcessBatchRequestMsg cfg m) (Intact cfg) := by
  unfold onPreProcessBatchRequestMsg
  rcases hvalid : s.checkPreProcessBatchReqMsgCorrectness cfg m with _ | _
  · exact yields_ok h
  · obtain ⟨hc, hlt⟩ := hsafe hvalid
    rw [if_pos rfl]
    refine (h.batchOf hc).bind fun b hb => ?_
    cases b.batchInProcess with
    | true => exact yields_ok h
    | false =>
      rw [if_neg Bool.false_ne_true]
      split_ifs with hcancel
      · exact h.onBatch hc fun b₁ _ hb₁ => hb₁.cancelBatch hfits hc _ _
      · refine (h.handlePreProcessRequestMsgs hfits (fun msg hmsg => ?_) 0).bind
          fun result hresult => ?_
        · obtain ⟨e, he, rfl⟩ := mem_map.mp hmsg
          exact ⟨hc, hlt e he⟩
        · obtain ⟨skip, s₁⟩ := result
          dsimp only
          split_ifs
          · exact yields_ok hresult
          · exact hresult.onBatch hc fun b₁ _ hb₁ => yields_ok (hb₁.of_fields rfl rfl)

end Requests

/-! ### Events -/

/-- What keeps the pre-processor alive. The messages name clients that have entries and slots that
exist, and no decision meets a quorum that reports an error while the primary succeeded. -/
def CrashSafe (cfg : PreProcessorConfig) (s : PreProcessor) : PreProcessorEvent → Prop
  | .clientRequest senderId m =>
    s.checkClientMsgCorrectness cfg m.isReadOnly m.clientProxyId senderId = true →
      cfg.isExternalClient m.clientProxyId = true
  | .clientBatch m => s.checkClientBatchMsgCorrectness cfg m = true →
    cfg.isExternalClient m.clientId = true ∧
      ∀ msg ∈ m.clientMsgs, cfg.isExternalClient msg.clientProxyId = true
  | .request m => m.viewNum = s.replica.currentView → s.checkPreProcessReqPrerequisites = true →
    cfg.isExternalClient m.clientId = true ∧ m.reqOffsetInBatch.toNat < cfg.clientMaxBatchSize
  | .batchRequest m => s.checkPreProcessBatchReqMsgCorrectness cfg m = true →
    cfg.isExternalClient m.clientId = true ∧
      ∀ e ∈ m.elements, e.reqOffsetInBatch.toNat < cfg.clientMaxBatchSize
  | .reply m => m.viewNum = s.replica.currentView → cfg.isExternalClient m.clientId = true ∧
    ∀ b, s.ongoingReqBatches m.clientId = some b → b.VoteSafe cfg m
  | .batchReply m => cfg.isExternalClient m.clientId = true ∧
    ∀ b, s.ongoingReqBatches m.clientId = some b → b.batchInProcess = true →
      b.batchCid = m.cid → s.checkPreProcessBatchReplyMsgCorrectness cfg m = true →
      EveryStep (fun b msg => b.handleSinglePreProcessReplyMsg cfg msg m.cid) b
        (RequestsBatch.VoteSafe cfg) m.getPreProcessReplyMsgs
  | .job place buffer len code => ∀ job, s.jobs[place]? = some job → job.isPrimary = true →
    ∀ b, s.ongoingReqBatches job.clientId = some b → ∀ request,
      (b.requestsMap job.reqOffsetInBatch).request = some request →
      RequestsBatch.ResultSafe cfg request buffer len code
  | .timer clientId _ => s.replica.isCurrentPrimary = true →
    ∀ b, s.ongoingReqBatches clientId = some b → b.NoErrorQuorums cfg
  | .replica _ => True

theorem Intact.batchReply (h : s.Intact cfg) (hfits : cfg.Fits) {m : PreProcessBatchReplyMsg}
    (hsafe : CrashSafe cfg s (.batchReply m)) :
    Yields (s.onPreProcessBatchReplyMsg cfg m) (Intact cfg) := by
  obtain ⟨hc, hvotes⟩ := hsafe
  refine h.onBatch hc fun b hb hintact => ?_
  split_ifs with hongoing hvalid
  · have hvotes := hvotes b hb hongoing.1 hongoing.2 hvalid
    have hids : ∀ msg ∈ m.getPreProcessReplyMsgs, msg.clientId = m.clientId := by
      intro msg hmsg
      obtain ⟨e, -, rfl⟩ := mem_map.mp hmsg
      rfl
    generalize m.getPreProcessReplyMsgs = msgs at hvotes hids
    clear hb hongoing
    induction msgs generalizing b with
    | nil => exact yields_ok hintact
    | cons msg msgs ih =>
      obtain ⟨hvote, hrest⟩ := everyStep_cons.mp hvotes
      rw [foldlM_cons]
      obtain ⟨b₁, hb₁, hintact₁⟩ :=
        hintact.handleReply hfits hc (hids msg mem_cons_self) hvote m.cid
      rw [hb₁, ok_bind]
      exact ih b₁ hintact₁ (hrest b₁ hb₁) fun msg' hmsg' =>
        hids msg' (mem_cons_of_mem _ hmsg')
  · exact yields_ok hintact
  · exact yields_ok hintact

theorem Intact.finishJob (h : s.Intact cfg) (hfits : cfg.Fits) {place : ℕ} {job : PreProcessJob}
    (hjob : s.jobs[place]? = some job) {buffer : List UInt8} {len : ℕ} {code : ResultCode}
    (hsafe : CrashSafe cfg s (.job place buffer len code)) :
    Yields ({ s with jobs := s.jobs.eraseIdx place }.finishJob cfg job buffer len code)
      (Intact cfg) := by
  have hrest : { s with jobs := s.jobs.eraseIdx place }.Intact cfg :=
    ⟨h.entries, h.batches, fun job' hjob' => h.jobs job' (mem_of_mem_eraseIdx hjob')⟩
  obtain ⟨hc, hlt⟩ := h.jobs job (mem_of_getElem? hjob)
  refine hrest.onBatch hc fun b hb hintact => ?_
  refine (hfits.accessBuffer hc hlt).yields.bind fun _ _ => ?_
  split_ifs with hprimary
  · exact hintact.handlePrimary hfits hc hlt (hsafe job hjob hprimary b hb) _
  · exact hintact.handleNonPrimary hfits hc hlt

theorem Intact.step (h : s.Intact cfg) (hfits : cfg.Fits) {e : PreProcessorEvent}
    (hsafe : CrashSafe cfg s e) : Yields (step cfg s e) (Intact cfg) := by
  have hslot : 0 < cfg.clientMaxBatchSize := by
    refine Nat.pos_of_ne_zero fun hzero => hfits.history ?_
    unfold PreProcessorConfig.historyHeight
    rw [hzero]
    rfl
  cases e with
  | clientRequest senderId m =>
    show Yields (s.onClientPreProcessRequestMsg cfg senderId m) _
    unfold onClientPreProcessRequestMsg
    split_ifs with hvalid
    · exact (h.clientRequest (hsafe hvalid) hslot _ _).bind fun result hresult => yields_ok hresult
    · exact yields_ok h
  | clientBatch m => exact h.clientBatch hsafe
  | request m =>
    show Yields (s.onPreProcessRequestMsg cfg m) _
    unfold onPreProcessRequestMsg
    split_ifs with hview
    · exact (h.preProcessRequest hfits (hsafe hview) _ _).bind fun result hresult =>
        yields_ok hresult
    · exact yields_ok h
  | batchRequest m => exact h.batchRequest hfits hsafe
  | reply m =>
    show Yields (s.onPreProcessReplyMsg cfg m) _
    unfold onPreProcessReplyMsg
    split_ifs with hview
    · obtain ⟨hc, hvote⟩ := hsafe hview
      exact h.onBatch hc fun b hb hintact => hintact.handleReply hfits hc rfl (hvote b hb) _
    · exact yields_ok h
  | batchReply m => exact h.batchReply hfits hsafe
  | job place buffer len code =>
    unfold PreProcessor.step
    dsimp only
    rcases hjob : s.jobs[place]? with _ | job
    · exact yields_ok h
    · exact h.finishJob hfits hjob hsafe
  | timer clientId elapsed =>
    unfold PreProcessor.step
    dsimp only
    rcases hb : s.ongoingReqBatches clientId with _ | b
    · exact yields_ok h
    · have hc : cfg.isExternalClient clientId = true := by
        rw [← h.entries, hb]
        rfl
      exact ((h.batches clientId b hb).timer hfits hc fun hprimary => hsafe hprimary b hb).bind
        fun b' hb' => yields_ok (h.setBatch hc hb')
  | replica replica => exact yields_ok ⟨h.entries, h.batches, h.jobs⟩

theorem intact_start (cfg : PreProcessorConfig) (replica : InternalReplicaApi) :
    (start cfg replica).Intact cfg := by
  refine ⟨fun c => ?_, fun c b hb => ?_, fun job hjob => absurd hjob not_mem_nil⟩
  · unfold start
    dsimp only
    cases cfg.isExternalClient c <;> rfl
  · unfold start at hb
    dsimp only at hb
    split_ifs at hb
    obtain rfl := Option.some.inj hb
    refine ⟨fun _ _ hslot => ?_, fun _ ho => absurd ho not_mem_nil⟩
    cases hslot

/-- **No crash.** Every run whose events are safe returns, and only the external clients have
entries at its end. -/
theorem never_crashes (hfits : cfg.Fits) {replica : InternalReplicaApi}
    {events : List PreProcessorEvent}
    (hsafe : EveryStep (PreProcessor.step cfg) (start cfg replica) (CrashSafe cfg) events) :
    ∃ s, run (PreProcessor.step cfg) (start cfg replica) events = .ok s ∧
      ∀ c, (s.ongoingReqBatches c).isSome = cfg.isExternalClient c := by
  obtain ⟨s, hrun, hintact⟩ := run_induction (P := fun _ s => s.Intact cfg)
    (intact_start cfg replica) (fun _ _ _ h he => h.step hfits he) hsafe
  exact ⟨s, hrun, hintact.entries⟩

/-! ## Messages that crash -/

def strangerReply : PreProcessReplyMsg :=
  Voting.replyWith 1 ReplyStatus.STATUS_GOOD ResultCode.SUCCESS 0 [] Voting.length_nil_lt

def requestAt (offset : UInt16) : PreProcessRequestMsg where
  reqType := .REQ_TYPE_PRE_PROCESS
  senderId := 0
  clientId := 4
  reqOffsetInBatch := offset
  reqSeqNum := 2
  viewNum := 0
  signatureVerified := true

/-- Both messages pass their validation. The first makes the primary follow the null pointer that
the lookup of an unknown client leaves in the map, the second fails the assertion on the offset. -/
theorem crashing_messages : strangerReply.validate (fourReplicas 0).toResultAuth = true ∧
    PreProcessor.step (fourReplicas 0) (start (fourReplicas 0) (executedUpTo 1 true))
      (.reply strangerReply) = .error .access ∧
    validateRequest (fourReplicas 1) (requestAt 2) = true ∧
    PreProcessor.step (fourReplicas 1) (start (fourReplicas 1) (executedUpTo 1 false))
      (.request (requestAt 2)) = .error .assertion :=
  ⟨rfl, rfl, rfl, rfl⟩

theorem fits_fourReplicas (myReplicaId : ReplicaId) : (fourReplicas myReplicaId).Fits :=
  ⟨(by decide : 0 < 2), (by decide : 1 * 2 < 2 ^ 16), (by decide : 2 % 2 ^ 8 ≠ 0)⟩

/-- A batch of the client, and the request of the primary for its first slot. -/
theorem never_crashes_request :
    ∃ s, run (PreProcessor.step (fourReplicas 1)) (start (fourReplicas 1) (executedUpTo 1 false))
        [.clientBatch (twoRequests [7] 2 3), .request (requestAt 0)] = .ok s ∧
      ∀ c, (s.ongoingReqBatches c).isSome = (fourReplicas 1).isExternalClient c := by
  refine never_crashes (fits_fourReplicas 1) (EveryStep.cons (fun _ => ⟨rfl, ?_⟩) fun s' _ =>
    EveryStep.cons (fun _ _ => ⟨rfl, ?_⟩) fun s' _ => everyStep_nil _ _ _)
  · intro msg hmsg
    rcases mem_pair.mp hmsg with rfl | rfl <;> rfl
  · show 0 < 2
    decide

end PreProcessor

end ConcordBft
